import PipelineX.Parsers

/-!
# The format of an HDFS line

A line has six parts, and a text is at most one line: the separators between
the parts do not occur in them. So the match of the regular expression is the
only one, and a parser that takes a text takes it apart in the one way it was
put together.
-/

set_option autoImplicit false

namespace PipelineX.HdfsFormat
open PipelineX.Records PipelineX.Regex PipelineX.Strptime PipelineX.Parsers

structure Line where
  date : List Char
  time : List Char
  pid : List Char
  level : List Char
  component : List Char
  content : List Char
  deriving DecidableEq, Repr

def Line.render (l : Line) : List Char :=
  HdfsStructuredCsvParser.reconstructRaw l.date l.time l.pid l.level l.component l.content

/-- The parts are as the format says, for what counts as a digit and as a word
character. -/
structure Line.Shaped (digit word : Char → Bool) (l : Line) : Prop where
  date : l.date.length = 6 ∧ ∀ c ∈ l.date, digit c = true
  time : l.time.length = 6 ∧ ∀ c ∈ l.time, digit c = true
  pid : l.pid ≠ [] ∧ ∀ c ∈ l.pid, digit c = true
  level : l.level ≠ [] ∧ ∀ c ∈ l.level, word c = true
  component : l.component ≠ [] ∧ ∀ c ∈ l.component, (word c || c = '$' || c = '.') = true
  content : ∀ c ∈ l.content, c ≠ '\n'

def Line.groups (l : Line) : List (String × List Char) :=
  [("date",l.date),("time",l.time),("pid",l.pid),("level",l.level),("component",l.component),
    ("content",l.content)]

section
variable {n : ℕ} {w rest : List Char} {g : List (String × List Char)}

/-- A named part and the separator after it. -/
theorem yields_part {name sep : String} {least : ℕ} {most : Option ℕ} {p : Char → Bool}
    {rs : List Regex} :
    (cat (.group name (.many true least most p)::text sep::rs)).Yields n w g rest ↔
      ∃ v w' g', w = v ++ sep.toList ++ w' ∧ g = (name,v)::g' ∧
        ((∀ c ∈ v, p c = true) ∧ least ≤ v.length ∧ ∀ m, most = some m → v.length ≤ m) ∧
        (cat rs).Yields (n+v.length+sep.toList.length) w' g' rest := by
  constructor
  · intro h
    obtain ⟨v,w₁,g₁,g₂,rfl,rfl,hgroup,hafter⟩ := yields_cat_cons.mp h
    obtain ⟨w₂,w',g₃,g',rfl,rfl,hsep,hrest⟩ := yields_cat_cons.mp hafter
    obtain ⟨g₄,rfl,hmany⟩ := yields_group.mp hgroup
    obtain ⟨rfl,hv⟩ := yields_many.mp hmany
    obtain ⟨rfl,rfl⟩ := yields_text.mp hsep
    exact ⟨v,w',g',by simp,by simp,hv,hrest⟩
  · rintro ⟨v,w',g',rfl,rfl,hv,h⟩
    refine yields_cat_cons.mpr ⟨v,sep.toList ++ w',[(name,v)],g',by simp,rfl,?_,?_⟩
    · exact yields_group.mpr ⟨[],rfl,yields_many.mpr ⟨rfl,hv⟩⟩
    · exact yields_cat_cons.mpr ⟨_,w',[],g',rfl,rfl,yields_text.mpr ⟨rfl,rfl⟩,h⟩

/-- The last part, up to the end of the text. -/
theorem yields_last {name : String} {p : Char → Bool} :
    (cat [.group name (.many true 0 none p),.finish]).Yields n w g rest ↔
      (∀ c ∈ w, p c = true) ∧ g = [(name,w)] ∧ (rest = [] ∨ rest = ['\n']) := by
  constructor
  · intro h
    obtain ⟨v,w₁,g₁,g₂,rfl,rfl,hgroup,hafter⟩ := yields_cat_cons.mp h
    obtain ⟨w₂,w₃,g₃,g₄,rfl,rfl,hend,hnone⟩ := yields_cat_cons.mp hafter
    obtain ⟨g₅,rfl,hmany⟩ := yields_group.mp hgroup
    obtain ⟨rfl,hv,_⟩ := yields_many.mp hmany
    obtain ⟨rfl,rfl⟩ := yields_empty.mp hnone
    obtain ⟨rfl,rfl,hrest⟩ := yields_finish.mp hend
    rw [List.append_nil, List.append_nil]
    exact ⟨hv,rfl,hrest⟩
  · rintro ⟨hp,rfl,hrest⟩
    refine yields_cat_cons.mpr ⟨w,[],[(name,w)],[],(List.append_nil w).symm,rfl,?_,?_⟩
    · exact yields_group.mpr ⟨[],rfl,yields_many.mpr ⟨rfl,hp,Nat.zero_le _,nofun⟩⟩
    · exact yields_cat_cons.mpr ⟨[],[],[],[],rfl,rfl,yields_finish.mpr ⟨rfl,rfl,hrest⟩,
        yields_empty.mpr ⟨rfl,rfl⟩⟩

theorem yields_from_start {rs : List Regex} :
    (cat (.start::rs)).Yields 0 w g rest ↔ (cat rs).Yields 0 w g rest := by
  rw [yields_cat_cons]
  constructor
  · rintro ⟨w₁,w₂,g₁,g₂,rfl,rfl,hstart,h⟩
    obtain ⟨rfl,rfl,_⟩ := yields_start.mp hstart
    exact h
  · intro h
    exact ⟨[],w,[],g,rfl,rfl,yields_start.mpr ⟨rfl,rfl,rfl⟩,h⟩

end

theorem length_six {α : Type} (v : List α) :
    (6 ≤ v.length ∧ ∀ m, some 6 = some m → v.length ≤ m) ↔ v.length = 6 := by
  constructor
  · rintro ⟨hlow,hhigh⟩
    have := hhigh 6 rfl
    omega
  · intro h
    refine ⟨by omega,fun m hm => ?_⟩
    cases hm
    omega

theorem some_char {α : Type} (v : List α) :
    (1 ≤ v.length ∧ ∀ m, none = some m → v.length ≤ m) ↔ v ≠ [] := by
  rw [← List.length_pos_iff]
  exact ⟨fun h => h.1,fun h => ⟨h,nofun⟩⟩

/-- What `_LINE_RE` can match is a line, before the end of the text or a newline
there. -/
theorem yields_lineRe {chars : CharTable} {w rest : List Char} {g : List (String × List Char)} :
    (HdfsParser.lineRe chars).Yields 0 w g rest ↔
      ∃ l : Line, l.Shaped (digit chars) chars.word ∧ w = l.render ∧ g = l.groups ∧
        (rest = [] ∨ rest = ['\n']) := by
  rw [HdfsParser.lineRe, yields_from_start]
  simp only [yields_part, yields_last, length_six, some_char]
  constructor
  · rintro ⟨date,_,_,rfl,rfl,hdate,time,_,_,rfl,rfl,htime,pid,_,_,rfl,rfl,hpid,
      level,_,_,rfl,rfl,hlevel,component,content,_,rfl,rfl,hcomponent,hcontent,rfl,hrest⟩
    refine ⟨⟨date,time,pid,level,component,content⟩,?_,?_,rfl,hrest⟩
    · exact
        { date := hdate.symm
          time := htime.symm
          pid := hpid.symm
          level := hlevel.symm
          component := hcomponent.symm
          content := fun c hc => of_decide_eq_true (hcontent c hc) }
    · simp [Line.render, HdfsStructuredCsvParser.reconstructRaw]
  · rintro ⟨⟨date,time,pid,level,component,content⟩,hl,rfl,rfl,hrest⟩
    refine ⟨date,_,_,?_,rfl,hl.date.symm,time,_,_,rfl,rfl,hl.time.symm,pid,_,_,rfl,rfl,
      hl.pid.symm,level,_,_,rfl,rfl,hl.level.symm,component,content,_,rfl,rfl,hl.component.symm,
      fun c hc => decide_eq_true (hl.content c hc),rfl,hrest⟩
    simp [Line.render, HdfsStructuredCsvParser.reconstructRaw]

/-- The separators are in no part that comes before them. -/
structure Separates (digit word : Char → Bool) : Prop where
  digit_space : digit ' ' = false
  word_space : word ' ' = false
  word_colon : word ':' = false

theorem separates (chars : CharTable) : Separates (digit chars) chars.word where
  digit_space := by
    rw [digit, chars.decimal_ascii ' ' (by decide)]
    rfl
  word_space := by
    rw [chars.word_ascii ' ' (by decide)]
    rfl
  word_colon := by
    rw [chars.word_ascii ':' (by decide)]
    rfl

theorem notMem_of_class {p : Char → Bool} {w : List Char} {c : Char} (hc : p c = false)
    (h : ∀ d ∈ w, p d = true) : c ∉ w := by
  intro hw
  have := h c hw
  rw [hc] at this
  cases this

/-- Two parts that end at the same separator are the same. -/
theorem part_inj {sep : Char} {v v' t t' : List Char} (hv : sep ∉ v) (hv' : sep ∉ v')
    (h : v ++ sep::t = v' ++ sep::t') : v = v' ∧ t = t' := by
  induction v generalizing v' with
  | nil =>
    cases v' with
    | nil => exact ⟨rfl,(List.cons.inj h).2⟩
    | cons c v' => exact absurd ((List.cons.inj h).1 ▸ List.mem_cons_self) hv'
  | cons c v ih =>
    cases v' with
    | nil => exact absurd ((List.cons.inj h).1 ▸ List.mem_cons_self) hv
    | cons c' v' =>
      obtain ⟨rfl,htail⟩ := List.cons.inj h
      obtain ⟨rfl,rfl⟩ := ih (fun hm => hv (List.mem_cons_of_mem _ hm))
        (fun hm => hv' (List.mem_cons_of_mem _ hm)) htail
      exact ⟨rfl,rfl⟩

theorem content_inj {v v' rest rest' : List Char} (hv : ∀ c ∈ v, c ≠ '\n')
    (hv' : ∀ c ∈ v', c ≠ '\n') (hrest : rest = [] ∨ rest = ['\n'])
    (hrest' : rest' = [] ∨ rest' = ['\n']) (h : v ++ rest = v' ++ rest') : v = v' ∧ rest = rest' := by
  have hn : '\n' ∉ v := fun hm => hv _ hm rfl
  have hn' : '\n' ∉ v' := fun hm => hv' _ hm rfl
  rcases hrest with rfl | rfl
  · rcases hrest' with rfl | rfl
    · simpa using h
    · rw [List.append_nil] at h
      exact absurd (h ▸ List.mem_append_right v' List.mem_cons_self) hn
  · rcases hrest' with rfl | rfl
    · rw [List.append_nil] at h
      exact absurd (h ▸ List.mem_append_right v List.mem_cons_self) hn'
    · exact ⟨(part_inj hn hn' h).1,rfl⟩

/-- A text is a line in one way only. -/
theorem render_inj {digit word : Char → Bool} (hsep : Separates digit word) {l l' : Line}
    {rest rest' : List Char} (hl : l.Shaped digit word) (hl' : l'.Shaped digit word)
    (hrest : rest = [] ∨ rest = ['\n']) (hrest' : rest' = [] ∨ rest' = ['\n'])
    (h : l.render ++ rest = l'.render ++ rest') : l = l' ∧ rest = rest' := by
  obtain ⟨date,time,pid,level,component,content⟩ := l
  obtain ⟨date',time',pid',level',component',content'⟩ := l'
  have hcomponent : (word ' ' || (' ' : Char) = '$' || (' ' : Char) = '.') = false := by
    rw [hsep.word_space]
    rfl
  have hcolon : (word ':' || (':' : Char) = '$' || (':' : Char) = '.') = false := by
    rw [hsep.word_colon]
    rfl
  simp only [Line.render, HdfsStructuredCsvParser.reconstructRaw, List.append_assoc,
    List.cons_append, List.nil_append] at h
  obtain ⟨rfl,h₁⟩ := part_inj (notMem_of_class hsep.digit_space hl.date.2)
    (notMem_of_class hsep.digit_space hl'.date.2) h
  obtain ⟨rfl,h₂⟩ := part_inj (notMem_of_class hsep.digit_space hl.time.2)
    (notMem_of_class hsep.digit_space hl'.time.2) h₁
  obtain ⟨rfl,h₃⟩ := part_inj (notMem_of_class hsep.digit_space hl.pid.2)
    (notMem_of_class hsep.digit_space hl'.pid.2) h₂
  obtain ⟨rfl,h₄⟩ := part_inj (notMem_of_class hsep.word_space hl.level.2)
    (notMem_of_class hsep.word_space hl'.level.2) h₃
  obtain ⟨rfl,h₅⟩ := part_inj (notMem_of_class hcolon hl.component.2)
    (notMem_of_class hcolon hl'.component.2) h₄
  obtain ⟨rfl,rfl⟩ := content_inj hl.content hl'.content hrest hrest' (List.cons.inj h₅).2
  exact ⟨rfl,rfl⟩

theorem match_lineRe {chars : CharTable} {s : List Char} {a : Found} :
    (HdfsParser.lineRe chars).match s = some a ↔
      ∃ l : Line, l.Shaped (digit chars) chars.word ∧ s = l.render ++ a.rest ∧
        a.word = l.render ∧ a.groups = l.groups ∧ (a.rest = [] ∨ a.rest = ['\n']) := by
  have hmem (b : Found) : b ∈ (HdfsParser.lineRe chars).run 0 s ↔
      ∃ l : Line, l.Shaped (digit chars) chars.word ∧ s = l.render ++ b.rest ∧
        b.word = l.render ∧ b.groups = l.groups ∧ (b.rest = [] ∨ b.rest = ['\n']) := by
    rw [mem_run, yields_lineRe]
    constructor
    · rintro ⟨hs,l,hl,hw,hg,hrest⟩
      exact ⟨l,hl,hw ▸ hs,hw,hg,hrest⟩
    · rintro ⟨l,hl,hs,hw,hg,hrest⟩
      exact ⟨hw ▸ hs,l,hl,hw,hg,hrest⟩
  rw [← hmem]
  constructor
  · exact First.mem
  · intro ha
    refine first_of_unique ha fun b hb => ?_
    obtain ⟨l,hl,hs,hw,hg,hrest⟩ := (hmem a).mp ha
    obtain ⟨l',hl',hs',hw',hg',hrest'⟩ := (hmem b).mp hb
    obtain ⟨rfl,hr⟩ := render_inj (separates chars) hl hl' hrest hrest' (hs.symm.trans hs')
    cases a
    cases b
    simp_all

/-- `blk_` and a number, which may be negative. -/
def IsBlock (digit : Char → Bool) (v : List Char) : Prop :=
  ∃ sign number, v = "blk_".toList ++ (sign ++ number) ∧ (sign = [] ∨ sign = ['-']) ∧
    number ≠ [] ∧ ∀ c ∈ number, digit c = true

/-- The number does not go on in what comes after it. -/
def Ends (digit : Char → Bool) (after : List Char) : Prop :=
  ∀ c, after.head? = some c → digit c = false

def HasBlock (digit : Char → Bool) (content : List Char) : Prop :=
  ∃ v, IsBlock digit v ∧ v <:+: content

/-- The first place at which a block stands, and all of its number. -/
def FirstBlock (digit : Char → Bool) (content v : List Char) : Prop :=
  ∃ before after, content = before ++ (v ++ after) ∧ IsBlock digit v ∧ Ends digit after ∧
    ∀ k < before.length, ¬ ∃ u, IsBlock digit u ∧ u <+: content.drop k

section
variable {chars : CharTable}

theorem yields_blockRe {n : ℕ} {v rest : List Char} {g : List (String × List Char)} :
    (HdfsParser.blockRe chars).Yields n v g rest ↔ ∃ sign number,
      v = "blk_".toList ++ (sign ++ number) ∧ g = [("1",sign ++ number)] ∧
        (sign = [] ∨ sign = ['-']) ∧ number ≠ [] ∧ ∀ c ∈ number, digit chars c = true := by
  have hsign (w : List Char) : ((∀ c ∈ w, minus c = true) ∧ 0 ≤ w.length ∧
      ∀ m, some 1 = some m → w.length ≤ m) ↔ w = [] ∨ w = ['-'] := by
    constructor
    · rintro ⟨hminus,_,hlen⟩
      have hone := hlen 1 rfl
      cases w with
      | nil => exact Or.inl rfl
      | cons c w =>
        have hnil : w = [] := List.eq_nil_of_length_eq_zero (by simpa using hone)
        have hc : c = '-' := of_decide_eq_true (hminus c List.mem_cons_self)
        exact Or.inr (by rw [hnil, hc])
    · rintro (rfl | rfl)
      · exact ⟨by simp,Nat.zero_le _,by simp⟩
      · refine ⟨by simp [minus],Nat.zero_le _,fun m hm => ?_⟩
        cases hm
        exact Nat.le_refl 1
  unfold HdfsParser.blockRe
  constructor
  · intro h
    obtain ⟨w₁,w₂,g₁,g₂,rfl,rfl,hblk,hafter⟩ := yields_cat_cons.mp h
    obtain ⟨rfl,rfl⟩ := yields_text.mp hblk
    obtain ⟨w₃,w₄,g₃,g₄,rfl,rfl,hgroup,hnone⟩ := yields_cat_cons.mp hafter
    obtain ⟨rfl,rfl⟩ := yields_empty.mp hnone
    obtain ⟨g₅,rfl,hboth⟩ := yields_group.mp hgroup
    obtain ⟨sign,w₅,g₆,g₇,rfl,rfl,hminus,hnumber⟩ := yields_cat_cons.mp hboth
    obtain ⟨number,w₆,g₈,g₉,rfl,rfl,hdigits,hend⟩ := yields_cat_cons.mp hnumber
    obtain ⟨rfl,rfl⟩ := yields_empty.mp hend
    obtain ⟨rfl,honce⟩ := yields_many.mp hminus
    obtain ⟨rfl,hd,hne⟩ := yields_many.mp hdigits
    rw [List.append_nil, List.append_nil]
    exact ⟨sign,number,rfl,rfl,(hsign sign).mp honce,(some_char number).mp hne,hd⟩
  · rintro ⟨sign,number,rfl,rfl,hs,hne,hd⟩
    refine yields_cat_cons.mpr ⟨_,sign ++ number,[],_,rfl,rfl,yields_text.mpr ⟨rfl,rfl⟩,?_⟩
    refine yields_cat_cons.mpr ⟨sign ++ number,[],[("1",sign ++ number)],[],
      (List.append_nil _).symm,rfl,?_,yields_empty.mpr ⟨rfl,rfl⟩⟩
    refine yields_group.mpr ⟨[],rfl,yields_cat_cons.mpr ⟨sign,number,[],[],rfl,rfl,
      yields_many.mpr ⟨rfl,(hsign sign).mpr hs⟩,?_⟩⟩
    exact yields_cat_cons.mpr ⟨number,[],[],[],(List.append_nil _).symm,rfl,
      yields_many.mpr ⟨rfl,hd,(some_char number).mpr hne⟩,yields_empty.mpr ⟨rfl,rfl⟩⟩

theorem run_blockRe_eq_nil {n : ℕ} {s : List Char} : (HdfsParser.blockRe chars).run n s = [] ↔
    ¬ ∃ v, IsBlock (digit chars) v ∧ v <+: s := by
  rw [List.eq_nil_iff_forall_not_mem, not_exists]
  constructor
  · rintro h v ⟨⟨sign,number,hv,hs,hne,hd⟩,rest,rfl⟩
    exact h ⟨v,[("1",sign ++ number)],rest⟩
      (mem_run.mpr ⟨rfl,yields_blockRe.mpr ⟨sign,number,hv,rfl,hs,hne,hd⟩⟩)
  · intro h a ha
    obtain ⟨hs,hy⟩ := mem_run.mp ha
    obtain ⟨sign,number,hv,_,hsign,hne,hd⟩ := yields_blockRe.mp hy
    exact h a.word ⟨⟨sign,number,hv,hsign,hne,hd⟩,a.rest,hs.symm⟩

theorem not_digit_minus : digit chars '-' = false := by
  rw [digit, chars.decimal_ascii '-' (by decide)]
  rfl

theorem takeWhile_number {number after : List Char} (hd : ∀ c ∈ number, digit chars c = true)
    (hend : Ends (digit chars) after) : (number ++ after).takeWhile (digit chars) = number ∧
      (number ++ after).dropWhile (digit chars) = after := by
  rw [List.takeWhile_append_of_pos hd, List.dropWhile_append_of_pos hd]
  cases after with
  | nil => exact ⟨List.append_nil _,rfl⟩
  | cons c after =>
    have hc := hend c rfl
    rw [List.takeWhile_cons_of_neg (by simp [hc]), List.dropWhile_cons_of_neg (by simp [hc])]
    exact ⟨List.append_nil _,rfl⟩

/-- The engine takes the whole number of a block. -/
theorem first_blockRe (n : ℕ) {sign number after : List Char} (hs : sign = [] ∨ sign = ['-'])
    (hne : number ≠ []) (hd : ∀ c ∈ number, digit chars c = true)
    (hend : Ends (digit chars) after) :
    First (HdfsParser.blockRe chars) n ("blk_".toList ++ (sign ++ number) ++ after)
      ⟨"blk_".toList ++ (sign ++ number),[("1",sign ++ number)],after⟩ := by
  obtain ⟨htake,hdrop⟩ := takeWhile_number hd hend
  have hnumber (m : ℕ) : First (.many true 1 none (digit chars)) m (number ++ after)
      ⟨number,[],after⟩ := by
    have hlen : 1 ≤ ((number ++ after).takeWhile (digit chars)).length := by
      rw [htake]
      exact List.length_pos_iff.mpr hne
    have h := first_many m (number ++ after) hlen
    rwa [htake, hdrop] at h
  have hsign (m : ℕ) : First (.many true 0 (some 1) minus) m (sign ++ (number ++ after))
      ⟨sign,[],number ++ after⟩ := by
    rcases hs with rfl | rfl
    · cases number with
      | nil => exact absurd rfl hne
      | cons c number =>
        refine first_absent m (number ++ after) (decide_eq_false fun hc => ?_)
        have := hd c List.mem_cons_self
        rw [hc, not_digit_minus] at this
        cases this
    · exact first_present m (number ++ after) (by decide)
  have hblk : First (text "blk_") n ("blk_".toList ++ (sign ++ (number ++ after)))
      ⟨"blk_".toList,[],sign ++ (number ++ after)⟩ :=
    first_of_unique (mem_run.mpr ⟨rfl,yields_text.mpr ⟨rfl,rfl⟩⟩) fun b hb => by
      obtain ⟨hs,hy⟩ := mem_run.mp hb
      obtain ⟨hw,hg⟩ := yields_text.mp hy
      cases b
      simp_all
  have hgroup := (((hsign (n+4)).seq ((hnumber _).seq (first_empty _ after))).group "1")
  have h := hblk.seq (hgroup.seq (first_empty _ after))
  simpa [HdfsParser.blockRe, cat] using h

/-- A block can be read to the end of its number. -/
theorem maximal_block {s : List Char} (h : ∃ v, IsBlock (digit chars) v ∧ v <+: s) :
    ∃ sign number after, s = "blk_".toList ++ (sign ++ number) ++ after ∧
      (sign = [] ∨ sign = ['-']) ∧ number ≠ [] ∧ (∀ c ∈ number, digit chars c = true) ∧
      Ends (digit chars) after := by
  obtain ⟨v,⟨sign,number,rfl,hs,hne,hd⟩,rest,rfl⟩ := h
  refine ⟨sign,(number ++ rest).takeWhile (digit chars),(number ++ rest).dropWhile (digit chars),
    ?_,hs,?_,fun c hc => List.mem_takeWhile_imp hc,fun c hc => ?_⟩
  · simp only [List.append_assoc, List.takeWhile_append_dropWhile]
  · rw [List.takeWhile_append_of_pos hd]
    exact List.append_ne_nil_of_left_ne_nil hne _
  · have := List.head?_dropWhile_not (digit chars) (number ++ rest)
    rw [hc] at this
    simpa using this

/-- The block id is the first block of the content, if it has one. -/
theorem blockId_eq_some {content v : List Char} :
    HdfsParser.blockId chars content = some (String.ofList v) ↔
      FirstBlock (digit chars) content v := by
  unfold HdfsParser.blockId
  rw [Option.map_eq_some_iff]
  constructor
  · rintro ⟨a,ha,hv⟩
    obtain ⟨before,s,rfl,hfirst,hno⟩ := search_eq_some.mp ha
    obtain ⟨hs,hy⟩ := mem_run.mp (First.mem hfirst)
    obtain ⟨sign',number',hw',_,hs',hne',hd'⟩ := yields_blockRe.mp hy
    obtain ⟨sign,number,after,rfl,hsign,hne,hd,hend⟩ :=
      maximal_block ⟨a.word,⟨sign',number',hw',hs',hne',hd'⟩,a.rest,hs.symm⟩
    have hmax := first_blockRe (0+before.length) hsign hne hd hend
    have ha : a = _ := Option.some.inj (hfirst.symm.trans hmax)
    have hvv : v = "blk_".toList ++ (sign ++ number) := by
      rw [ha] at hv
      exact (String.ofList_injective hv).symm
    rw [hvv]
    refine ⟨before,after,rfl,⟨sign,number,rfl,hsign,hne,hd⟩,hend,fun k hk => ?_⟩
    exact run_blockRe_eq_nil.mp (hno k hk)
  · rintro ⟨before,after,rfl,⟨sign,number,rfl,hsign,hne,hd⟩,hend,hno⟩
    have hmax := first_blockRe (0+before.length) hsign hne hd hend
    refine ⟨_,search_eq_some.mpr ⟨before,_,rfl,hmax,fun k hk => ?_⟩,rfl⟩
    exact run_blockRe_eq_nil.mpr (hno k hk)

theorem blockId_eq_none {content : List Char} : HdfsParser.blockId chars content = none ↔
    ¬ HasBlock (digit chars) content := by
  unfold HdfsParser.blockId
  rw [Option.map_eq_none_iff, search_eq_none]
  simp only [run_blockRe_eq_nil]
  constructor
  · rintro h ⟨v,hv,before,after,rfl⟩
    refine h before.length (by simp) ⟨v,hv,?_⟩
    rw [List.append_assoc, List.drop_left]
    exact List.prefix_append v after
  · rintro h k hk ⟨v,hv,after,hafter⟩
    refine h ⟨v,hv,content.take k,after,?_⟩
    rw [List.append_assoc, hafter, List.take_append_drop]

end

/-- The parts of the line are the groups of the match. -/
theorem group_of_groups {a : Found} {l : Line} (h : a.groups = l.groups) :
    group a "date" = l.date ∧ group a "time" = l.time ∧ group a "pid" = l.pid ∧
      group a "level" = l.level ∧ group a "component" = l.component ∧
      group a "content" = l.content := by
  simp [Parsers.group, Found.group?, h, Line.groups]

theorem bare_enrichment (id : UUID) (raw : String) (timestamp : Datetime) (a : Found)
    (key : String) : (HdfsParser.bare id raw timestamp a).enrichment.get? key = none := rfl

theorem record_blockId (chars : CharTable) (id : UUID) (raw : String) (timestamp : Datetime)
    (a : Found) : (HdfsParser.record chars id raw timestamp a).enrichment.get? "block_id" =
      (HdfsParser.blockId chars (group a "content")).map Value.str := by
  unfold HdfsParser.record
  cases HdfsParser.blockId chars (group a "content") <;> dsimp only <;> split <;>
    simp [LogRecord.addEnrichment, OrderedDict.get?_insert_self, OrderedDict.get?_insert_of_ne,
      bare_enrichment]

theorem record_parseWarning (chars : CharTable) (id : UUID) (raw : String) (timestamp : Datetime)
    (a : Found) : (HdfsParser.record chars id raw timestamp a).enrichment.get? "parse_warning" =
      if (HdfsParser.levelMap.lookup (String.ofList (group a "level"))).isNone then
        some (.str ("unknown level: " ++ String.ofList (group a "level")))
      else none := by
  unfold HdfsParser.record
  cases HdfsParser.blockId chars (group a "content") <;> dsimp only <;> split <;>
    simp [LogRecord.addEnrichment, OrderedDict.get?_insert_self, OrderedDict.get?_insert_of_ne,
      bare_enrichment]

/-- What is added to the enrichment leaves the rest of the record alone. -/
theorem record_bare (chars : CharTable) (id : UUID) (raw : String) (timestamp : Datetime)
    (a : Found) : ∃ enrichment, HdfsParser.record chars id raw timestamp a =
      { HdfsParser.bare id raw timestamp a with enrichment := enrichment } := by
  unfold HdfsParser.record
  cases HdfsParser.blockId chars (group a "content") <;> dsimp only <;> split <;>
    exact ⟨_,rfl⟩

/-- A word character of ASCII. -/
def isWord (c : Char) : Bool := c.isAlphanum || c = '_'

theorem digit_ascii (chars : CharTable) {c : Char} (h : c.toNat < 128) :
    digit chars c = c.isDigit := by
  rw [digit, chars.decimal_ascii c h]
  cases c.isDigit <;> rfl

/-- The shape depends on the characters of the line alone. -/
theorem Line.Shaped.congr {digit word digit' word' : Char → Bool} {l : Line}
    (hl : l.Shaped digit word) (h : ∀ c ∈ l.render, digit c = digit' c ∧ word c = word' c) :
    l.Shaped digit' word' := by
  simp only [Line.render, HdfsStructuredCsvParser.reconstructRaw, List.mem_append] at h
  exact
    { date := ⟨hl.date.1,fun c hc => by rw [← (h c (by simp [hc])).1, hl.date.2 c hc]⟩
      time := ⟨hl.time.1,fun c hc => by rw [← (h c (by simp [hc])).1, hl.time.2 c hc]⟩
      pid := ⟨hl.pid.1,fun c hc => by rw [← (h c (by simp [hc])).1, hl.pid.2 c hc]⟩
      level := ⟨hl.level.1,fun c hc => by rw [← (h c (by simp [hc])).2, hl.level.2 c hc]⟩
      component := ⟨hl.component.1,fun c hc => by
        rw [← (h c (by simp [hc])).2, hl.component.2 c hc]⟩
      content := hl.content }

theorem IsBlock.congr {digit digit' : Char → Bool} {v : List Char} (hv : IsBlock digit v)
    (h : ∀ c ∈ v, digit c = digit' c) : IsBlock digit' v := by
  obtain ⟨sign,number,rfl,hs,hne,hd⟩ := hv
  exact ⟨sign,number,rfl,hs,hne,fun c hc => by rw [← h c (by simp [hc]), hd c hc]⟩

theorem HasBlock.congr {digit digit' : Char → Bool} {content : List Char}
    (hb : HasBlock digit content) (h : ∀ c ∈ content, digit c = digit' c) :
    HasBlock digit' content := by
  obtain ⟨v,hv,hin⟩ := hb
  exact ⟨v,hv.congr fun c hc => h c (hin.subset hc),hin⟩

theorem FirstBlock.congr {digit digit' : Char → Bool} {content v : List Char}
    (hb : FirstBlock digit content v) (h : ∀ c ∈ content, digit c = digit' c) :
    FirstBlock digit' content v := by
  obtain ⟨before,after,rfl,hv,hend,hno⟩ := hb
  refine ⟨before,after,rfl,hv.congr fun c hc => h c (by simp [hc]),fun c hc => ?_,?_⟩
  · have hmem := List.mem_of_head? hc
    rw [← h c (by simp [hmem]), hend c hc]
  · rintro k hk ⟨u,hu,hpre⟩
    refine hno k hk ⟨u,hu.congr fun c hc => (h c ?_).symm,hpre⟩
    exact List.mem_of_mem_drop (hpre.subset hc)

/-- The text is this line, at this instant, with at most one newline after it. -/
structure Accepted (raw : String) (l : Line) (t : Datetime) : Prop where
  shaped : l.Shaped Char.isDigit isWord
  text : raw.toList = l.render ∨ raw.toList = l.render ++ ['\n']
  instant : moment (l.date ++ l.time) = some t

/-- The record says what the line says. -/
structure Reads (raw : String) (l : Line) (t : Datetime) (r : LogRecord) : Prop where
  timestamp : r.timestamp = some t
  pid : r.rawPayload.get? "pid" = some (.str (String.ofList l.pid))
  levelRaw : r.rawPayload.get? "level_raw" = some (.str (String.ofList l.level))
  rawText : r.rawPayload.get? "raw" = some (.str raw)
  source : r.source = String.ofList l.component
  message : r.message = String.ofList l.content
  severity : r.severity = (HdfsParser.levelMap.lookup (String.ofList l.level)).getD .info
  parseWarning : r.enrichment.get? "parse_warning" =
    if (HdfsParser.levelMap.lookup (String.ofList l.level)).isNone then
      some (.str ("unknown level: " ++ String.ofList l.level))
    else none
  block : HasBlock Char.isDigit l.content → ∃ v, FirstBlock Char.isDigit l.content v ∧
    r.enrichment.get? "block_id" = some (.str (String.ofList v))
  noBlock : ¬ HasBlock Char.isDigit l.content → r.enrichment.get? "block_id" = none
  rendered : raw.toList =
      HdfsStructuredCsvParser.reconstructRaw l.date l.time l.pid l.level l.component l.content ∨
    raw.toList =
      HdfsStructuredCsvParser.reconstructRaw l.date l.time l.pid l.level l.component l.content ++
        ['\n']

section
variable {chars : CharTable} {raw : String} {l : Line}

theorem record_reads (id : UUID) {t : Datetime} {a : Found} (hg : a.groups = l.groups)
    (hascii : ∀ c ∈ raw.toList, c.toNat < 128) (h : Accepted raw l t) :
    Reads raw l t (HdfsParser.record chars id raw t a) := by
  obtain ⟨hdate,htime,hpid,hlevel,hcomponent,hcontent⟩ := group_of_groups hg
  obtain ⟨enrichment,hbare⟩ := record_bare chars id raw t a
  have hdigit : ∀ c ∈ l.content, digit chars c = c.isDigit := by
    intro c hc
    have hmem : c ∈ l.render := by
      simp [Line.render, HdfsStructuredCsvParser.reconstructRaw, hc]
    refine digit_ascii chars (hascii c ?_)
    rcases h.text with ht | ht
    · exact ht ▸ hmem
    · exact ht ▸ List.mem_append_left _ hmem
  have hblock := record_blockId chars id raw t a
  rw [hcontent] at hblock
  constructor
  · rw [hbare]
    rfl
  · rw [hbare, ← hpid]
    rfl
  · rw [hbare, ← hlevel]
    rfl
  · rw [hbare]
    rfl
  · rw [hbare, ← hcomponent]
    rfl
  · rw [hbare, ← hcontent]
    rfl
  · rw [hbare, ← hlevel]
    rfl
  · rw [record_parseWarning, hlevel]
  · intro hhas
    have hne : HdfsParser.blockId chars l.content ≠ none := fun hnone =>
      blockId_eq_none.mp hnone (hhas.congr fun c hc => (hdigit c hc).symm)
    obtain ⟨b,hb⟩ := Option.ne_none_iff_exists'.mp hne
    have hfirst : FirstBlock (digit chars) l.content b.toList :=
      blockId_eq_some.mp (by rw [hb, String.ofList_toList])
    refine ⟨b.toList,hfirst.congr hdigit,?_⟩
    rw [hblock, hb, String.ofList_toList]
    rfl
  · intro hno
    have hnone : HdfsParser.blockId chars l.content = none :=
      blockId_eq_none.mpr fun hhas => hno (hhas.congr hdigit)
    rw [hblock, hnone]
    rfl
  · exact h.text

variable (chars)

/-- ASCII digits and word characters are all that the classes of the pattern
take from an ASCII text. -/
theorem shaped_iff (hascii : ∀ c ∈ raw.toList, c.toNat < 128)
    (hsub : ∀ c ∈ l.render, c ∈ raw.toList) :
    l.Shaped (digit chars) chars.word ↔ l.Shaped Char.isDigit isWord := by
  have hsame : ∀ c ∈ l.render, digit chars c = c.isDigit ∧ chars.word c = isWord c :=
    fun c hc => ⟨digit_ascii chars (hascii c (hsub c hc)),chars.word_ascii c (hascii c (hsub c hc))⟩
  constructor
  · intro hl
    exact hl.congr hsame
  · intro hl
    exact hl.congr fun c hc => ⟨(hsame c hc).1.symm,(hsame c hc).2.symm⟩

theorem stamp_digits (hl : l.Shaped Char.isDigit isWord) :
    (l.date ++ l.time).length = 12 ∧ ∀ c ∈ l.date ++ l.time, Ascii c := by
  refine ⟨by rw [List.length_append, hl.date.1, hl.time.1],fun c hc => ?_⟩
  rcases List.mem_append.mp hc with hc | hc
  · exact CharTable.toNat_of_isDigit (hl.date.2 c hc)
  · exact CharTable.toNat_of_isDigit (hl.time.2 c hc)

variable {chars} in
/-- A line is matched, with a newline after it or without. -/
theorem match_text (hl : l.Shaped (digit chars) chars.word)
    (htext : raw.toList = l.render ∨ raw.toList = l.render ++ ['\n']) :
    ∃ a, (HdfsParser.lineRe chars).match raw.toList = some a ∧ a.groups = l.groups := by
  rcases htext with ht | ht
  · exact ⟨⟨l.render,l.groups,[]⟩,match_lineRe.mpr
      ⟨l,hl,by rw [ht, List.append_nil],rfl,rfl,Or.inl rfl⟩,rfl⟩
  · exact ⟨⟨l.render,l.groups,['\n']⟩,match_lineRe.mpr ⟨l,hl,ht,rfl,rfl,Or.inr rfl⟩,rfl⟩

theorem parse_accepted (id : UUID) {t : Datetime} (hascii : ∀ c ∈ raw.toList, c.toNat < 128)
    (h : Accepted raw l t) :
    ∃ r, HdfsParser.parse chars id raw = .ok r ∧ Reads raw l t r := by
  have hsub : ∀ c ∈ l.render, c ∈ raw.toList := by
    rcases h.text with ht | ht
    · exact fun c hc => ht ▸ hc
    · exact fun c hc => ht ▸ List.mem_append_left _ hc
  have hshaped := (shaped_iff chars hascii hsub).mpr h.shaped
  obtain ⟨a,ha,hg⟩ := match_text hshaped h.text
  obtain ⟨hdate,htime,_⟩ := group_of_groups hg
  obtain ⟨hlen,hdigits⟩ := stamp_digits h.shaped
  have hstamp : strptime chars (l.date ++ l.time) short = .ok t := by
    rcases strptime_moment chars _ hlen hdigits with ⟨_,_,hm⟩ | ⟨t',ht',hm⟩
    · rw [h.instant] at hm
      cases hm
    · rw [h.instant] at hm
      rw [ht', Option.some.inj hm]
  refine ⟨HdfsParser.record chars id raw t a,?_,record_reads id hg hascii h⟩
  unfold HdfsParser.parse
  rw [ha]
  dsimp only
  rw [hdate, htime, hstamp]

theorem parse_refused (id : UUID) (hascii : ∀ c ∈ raw.toList, c.toNat < 128)
    (h : ¬ ∃ l t, Accepted raw l t) :
    ∃ message, HdfsParser.parse chars id raw = .error (.parserError message) := by
  unfold HdfsParser.parse
  cases ha : (HdfsParser.lineRe chars).match raw.toList with
  | none => exact ⟨_,rfl⟩
  | some a =>
    obtain ⟨l,hl,hs,_,hg,hrest⟩ := match_lineRe.mp ha
    obtain ⟨hdate,htime,_⟩ := group_of_groups hg
    have hsub : ∀ c ∈ l.render, c ∈ raw.toList := fun c hc => hs ▸ List.mem_append_left _ hc
    have hshaped := (shaped_iff chars hascii hsub).mp hl
    obtain ⟨hlen,hdigits⟩ := stamp_digits hshaped
    simp only [hdate, htime]
    rcases strptime_moment chars _ hlen hdigits with ⟨message,hmessage,_⟩ | ⟨t,_,hm⟩
    · rw [hmessage]
      exact ⟨_,rfl⟩
    · refine absurd ⟨l,t,hshaped,?_,hm⟩ h
      rcases hrest with hr | hr
      · rw [hr, List.append_nil] at hs
        exact Or.inl hs
      · rw [hr] at hs
        exact Or.inr hs

end

/-- On ASCII texts the parser takes exactly the lines of the format that have a
real date and time, reads all of each, and refuses every other text with a
`ParserError`. -/
theorem exact_format (chars : CharTable) (id : UUID) (raw : String)
    (hascii : ∀ c ∈ raw.toList, c.toNat < 128) :
    ((∃ r, HdfsParser.parse chars id raw = .ok r) ↔ ∃ l t, Accepted raw l t) ∧
    (∀ l t r, Accepted raw l t → HdfsParser.parse chars id raw = .ok r → Reads raw l t r) ∧
    ∀ e, HdfsParser.parse chars id raw = .error e → ∃ message, e = .parserError message := by
  refine ⟨⟨?_,?_⟩,?_,?_⟩
  · rintro ⟨r,hr⟩
    by_contra hno
    obtain ⟨message,hmessage⟩ := parse_refused chars id hascii hno
    rw [hr] at hmessage
    cases hmessage
  · rintro ⟨l,t,h⟩
    obtain ⟨r,hr,_⟩ := parse_accepted chars id hascii h
    exact ⟨r,hr⟩
  · intro l t r h hr
    obtain ⟨r',hr',hreads⟩ := parse_accepted chars id hascii h
    rw [hr] at hr'
    exact Except.ok.inj hr' ▸ hreads
  · intro e he
    by_cases hacc : ∃ l t, Accepted raw l t
    · obtain ⟨l,t,h⟩ := hacc
      obtain ⟨r,hr,_⟩ := parse_accepted chars id hascii h
      rw [he] at hr
      cases hr
    · obtain ⟨message,hmessage⟩ := parse_refused chars id hascii hacc
      rw [he] at hmessage
      exact ⟨message,Except.error.inj hmessage⟩

def sampleLine : Line where
  date := ['0','8','1','1','0','9']
  time := ['2','0','3','6','1','5']
  pid := ['1','4','8']
  level := ['I','N','F','O']
  component := "dfs.DataNode$PacketResponder".toList
  content := "PacketResponder 1 for block blk_38865049064139660 terminating".toList

/-- The line of the module's documentation. -/
def sampleRaw : String := "081109 203615 148 INFO dfs.DataNode$PacketResponder: " ++
  "PacketResponder 1 for block blk_38865049064139660 terminating"

theorem sample_accepted :
    Accepted sampleRaw sampleLine (Calendar.instant 2008 11 9 20 36 15 0) where
  shaped :=
    { date := ⟨rfl,CharTable.forall_of_all rfl⟩
      time := ⟨rfl,CharTable.forall_of_all rfl⟩
      pid := ⟨List.cons_ne_nil _ _,CharTable.forall_of_all rfl⟩
      level := ⟨List.cons_ne_nil _ _,CharTable.forall_of_all rfl⟩
      component := ⟨List.cons_ne_nil _ _,CharTable.forall_of_all rfl⟩
      content := CharTable.forall_of_all rfl }
  text := Or.inl (by decide)
  instant := by decide

theorem sample_ascii : ∀ c ∈ sampleRaw.toList, c.toNat < 128 := CharTable.forall_of_all rfl

theorem exact_format_sample : ∃ r, HdfsParser.parse .ascii 0 sampleRaw = .ok r ∧
    Reads sampleRaw sampleLine (Calendar.instant 2008 11 9 20 36 15 0) r := by
  obtain ⟨haccepts,hreads,_⟩ := exact_format .ascii 0 sampleRaw sample_ascii
  obtain ⟨r,hr⟩ := haccepts.mpr ⟨sampleLine,_,sample_accepted⟩
  exact ⟨r,hr,hreads sampleLine _ r sample_accepted hr⟩

end PipelineX.HdfsFormat
