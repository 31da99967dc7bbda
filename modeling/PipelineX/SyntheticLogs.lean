import PipelineX.HdfsFormat
import PipelineX.CivilDate

/-!
# The lines of `generate_synthetic_logs.py`

The HDFS lines that the generator formats. What it draws from its random
generator is an input, one number a draw; `randint` brings it into its range.
-/

set_option autoImplicit false

namespace PipelineX.SyntheticLogs
open PipelineX.Records PipelineX.Strptime PipelineX.Parsers PipelineX.HdfsFormat
open PipelineX.CivilDate

/-- `rng.randint(lo, hi)`. -/
def randint (lo hi draw : ℕ) : ℕ := lo+draw%(hi+1-lo)

theorem randint_mem {lo hi : ℕ} (h : lo ≤ hi) (draw : ℕ) :
    lo ≤ randint lo hi draw ∧ randint lo hi draw ≤ hi := by
  have hlt := Nat.mod_lt draw (show hi+1-lo > 0 by omega)
  unfold randint
  omega

/-- `str(n)`. -/
def decimal (n : ℕ) : List Char := Nat.toDigits 10 n

def integer : ℤ → List Char
  | .ofNat n => decimal n
  | .negSucc n => '-'::decimal (n+1)

/-- `f"{n:0{width}d}"`, of a number with no more digits. -/
def padded : ℕ → ℕ → List Char
  | 0, _ => []
  | width+1, n => padded width (n/10) ++ [Nat.digitChar (n%10)]

/-- `ts.strftime("%y%m%d")`. -/
def dateStr (ts : Moment) : List Char :=
  padded 2 (ts.date.year%100) ++ padded 2 ts.date.month ++ padded 2 ts.date.day

/-- `ts.strftime("%H%M%S")`. -/
def timeStr (ts : Moment) : List Char :=
  padded 2 ts.hour ++ padded 2 ts.minute ++ padded 2 ts.second

/-- The event ids of the templates. -/
inductive HdfsEvent where
  | e5
  | e11
  | e22
  | e26
  | e9
  | e21
  | e4
  | e10
  | e14
  deriving DecidableEq, Repr

/-- What stands between the braces of a template, `block` with the `blk_` in
front of it. -/
inductive Piece where
  | text (s : String)
  | node
  | node2
  | port
  | port2
  | block
  | seq
  | idx
  deriving DecidableEq, Repr

/-- `_HDFS_TEMPLATES`. -/
def template : HdfsEvent → List Piece
  | .e5 => [.text "BLOCK* ask 10.250.",.node,.text ".",.port,.text ":50010 to replicate ",.block,
      .text " to datanode(s) 10.250.",.node2,.text ".",.port2,.text ":50010"]
  | .e11 => [.text "Received block ",.block,.text " of size 67108864 from /10.251.",.node,
      .text ".",.port]
  | .e22 => [.text "BLOCK* NameSystem.allocateBlock: /user/root/data/part-",.seq,.text ". ",.block]
  | .e26 => [.text "BLOCK* NameSystem.addStoredBlock: blockMap updated: 10.251.",.node,.text ".",
      .port,.text ":50010 is added to ",.block,.text " size 67108864"]
  | .e9 => [.text "Deleting block ",.block,.text " file /tmp/",.block]
  | .e21 => [.text "Deleting block ",.block,.text " file /var/cache/hadoop/",.block]
  | .e4 => [.text "BLOCK* ask 10.250.",.node,.text ".",.port,.text ":50010 to delete ",.block]
  | .e10 => [.text "PacketResponder ",.idx,.text " for block ",.block,.text " terminating"]
  | .e14 => [.text "Exception while reading from block ",.block,.text ": connection reset"]

/-- What is drawn for a line. -/
structure LineDraw where
  pick : ℕ
  seconds : ℕ
  node : ℕ
  node2 : ℕ
  port : ℕ
  port2 : ℕ
  seq : ℕ
  idx : ℕ
  deriving DecidableEq, Repr

def Piece.render (blk : ℤ) (d : LineDraw) : Piece → List Char
  | .text s => s.toList
  | .node => decimal (randint 0 255 d.node)
  | .node2 => decimal (randint 0 255 d.node2)
  | .port => decimal (randint 40000 60000 d.port)
  | .port2 => decimal (randint 40000 60000 d.port2)
  | .block => "blk_".toList ++ integer blk
  | .seq => decimal (randint 1 100000 d.seq)
  | .idx => decimal (randint 0 3 d.idx)

def content (event : HdfsEvent) (blk : ℤ) (d : LineDraw) : List Char :=
  (template event).flatMap (Piece.render blk d)

def component (event : HdfsEvent) : List Char :=
  if event ∈ [.e22,.e26,.e5,.e4] then "dfs.FSNamesystem".toList
  else "dfs.DataNode$PacketResponder".toList

/-- `_format_hdfs_line`. -/
def formatHdfsLine (ts : Moment) (pid : ℕ) (event : HdfsEvent) (blk : ℤ) (d : LineDraw) :
    List Char :=
  dateStr ts ++ [' '] ++ timeStr ts ++ [' '] ++ decimal pid ++ [' '] ++ "INFO".toList ++ [' '] ++
    component event ++ [':',' '] ++ content event blk d

/-- `base_ts` of the HDFS lines. -/
def hdfsBase : Date := ⟨2024,1,1,by decide,by decide,by decide⟩

/-- `base_ts + timedelta(seconds=...)`. -/
def hdfsSeconds (d : LineDraw) : ℕ := randint 0 (30*24*3600) d.seconds

def hdfsTs (d : LineDraw) : Moment := secondsAfter hdfsBase (hdfsSeconds d)

theorem digitChar_ascii {n : ℕ} (hn : n < 10) : Ascii (Nat.digitChar n) ∧
    (Nat.digitChar n).toNat-48 = n := by
  unfold Ascii
  revert n
  decide

theorem isDigit_of_ascii {c : Char} (h : Ascii c) : c.isDigit = true := by
  simp only [Char.isDigit, Bool.and_eq_true, decide_eq_true_eq]
  exact ⟨h.1,h.2⟩

theorem decimal_digits (n : ℕ) : decimal n ≠ [] ∧ ∀ c ∈ decimal n, c.isDigit = true :=
  ⟨Nat.toDigits_ne_nil,fun _ hc => Nat.isDigit_of_mem_toDigits (by decide) (by decide) hc⟩

theorem padded_length (width n : ℕ) : (padded width n).length = width := by
  induction width generalizing n with
  | zero => rfl
  | succ width ih => rw [padded, List.length_append, ih, List.length_singleton]

theorem padded_ascii (width n : ℕ) : ∀ c ∈ padded width n, Ascii c := by
  induction width generalizing n with
  | zero => simp [padded]
  | succ width ih =>
    intro c hc
    rcases List.mem_append.mp hc with hc | hc
    · exact ih _ c hc
    · rw [List.mem_singleton.mp hc]
      exact (digitChar_ascii (Nat.mod_lt n (by decide))).1

theorem padded_two (n : ℕ) :
    padded 2 n = [Nat.digitChar (n/10%10),Nat.digitChar (n%10)] := rfl

theorem value_two {n : ℕ} (hn : n < 100) :
    value (Nat.digitChar (n/10%10)) (Nat.digitChar (n%10)) = n := by
  rw [value, (digitChar_ascii (Nat.mod_lt (n/10) (by decide))).2,
    (digitChar_ascii (Nat.mod_lt n (by decide))).2]
  omega

/-- What is written of a moment of this century is read back. -/
theorem moment_strftime (ts : Moment) (hyear : 2000 ≤ ts.date.year ∧ ts.date.year ≤ 2068) :
    moment (dateStr ts ++ timeStr ts) = some (ts.instant 0) := by
  have hmonth := ts.date.month_mem
  have hday := ts.date.day_mem
  have hlong := daysInMonth_le ts.date.year ts.date.month
  have hh := ts.hour_le
  have hm := ts.minute_le
  have hs := ts.second_le
  simp only [dateStr, timeStr, padded_two, List.cons_append, List.nil_append, moment]
  rw [value_two (show ts.date.year%100 < 100 by omega), value_two (show ts.date.month < 100 by omega),
    value_two (show ts.date.day < 100 by omega), value_two (show ts.hour < 100 by omega),
    value_two (show ts.minute < 100 by omega), value_two (show ts.second < 100 by omega),
    if_pos (show ts.date.year%100 ≤ 68 by omega),
    show 2000+ts.date.year%100 = ts.date.year by omega,
    if_pos ⟨ts.date.isDate (by omega),hh,hm,hs⟩]
  rfl

/-- A printable character of ASCII. -/
def Printable (c : Char) : Prop := 32 ≤ c.toNat ∧ c.toNat < 127

instance (c : Char) : Decidable (Printable c) := inferInstanceAs (Decidable (_ ∧ _))

theorem printable_ne {c e : Char} (h : Printable c) (he : e.toNat < 32) : c ≠ e := by
  rintro rfl
  exact absurd h.1 (Nat.not_le.mpr he)

/-- Printable, and nothing of a block id but its letters. -/
def Plain (c : Char) : Prop := Printable c ∧ c ≠ '_'

instance (c : Char) : Decidable (Plain c) := inferInstanceAs (Decidable (_ ∧ _))

theorem digit_plain {c : Char} (h : c.isDigit = true) : Plain c := by
  have hrange := CharTable.toNat_of_isDigit h
  refine ⟨⟨by omega,by omega⟩,?_⟩
  rintro rfl
  exact absurd h (by decide)

theorem integer_digits (n : ℤ) : ∃ sign number, integer n = sign ++ number ∧
    (sign = [] ∨ sign = ['-']) ∧ number ≠ [] ∧ ∀ c ∈ number, c.isDigit = true := by
  cases n with
  | ofNat n => exact ⟨[],decimal n,rfl,Or.inl rfl,decimal_digits n⟩
  | negSucc n => exact ⟨['-'],decimal (n+1),rfl,Or.inr rfl,decimal_digits (n+1)⟩

theorem integer_plain (n : ℤ) : ∀ c ∈ integer n, Plain c := by
  obtain ⟨sign,number,h,hsign,_,hdigits⟩ := integer_digits n
  rw [h]
  intro c hc
  rcases List.mem_append.mp hc with hc | hc
  · rcases hsign with rfl | rfl
    · cases hc
    · rw [List.mem_singleton.mp hc]
      decide
  · exact digit_plain (hdigits c hc)

/-- The id that stands where a template has its block. -/
def blockText (blk : ℤ) : List Char := "blk_".toList ++ integer blk

theorem blockText_isBlock (blk : ℤ) : IsBlock Char.isDigit (blockText blk) := by
  obtain ⟨sign,number,h,hsign,hne,hdigits⟩ := integer_digits blk
  exact ⟨sign,number,by rw [blockText, h],hsign,hne,hdigits⟩

/-- Plain text is the same in every piece but a block. -/
def Piece.IsPlain : Piece → Bool
  | .text s => s.toList.all (fun c => decide (Plain c))
  | .block => false
  | _ => true

theorem Piece.render_plain (blk : ℤ) (d : LineDraw) {p : Piece} (hp : p.IsPlain = true) :
    ∀ c ∈ p.render blk d, Plain c := by
  intro c hc
  cases p with
  | text s => exact of_decide_eq_true (List.all_eq_true.mp hp c hc)
  | block => cases hp
  | node => exact digit_plain ((decimal_digits _).2 c hc)
  | node2 => exact digit_plain ((decimal_digits _).2 c hc)
  | port => exact digit_plain ((decimal_digits _).2 c hc)
  | port2 => exact digit_plain ((decimal_digits _).2 c hc)
  | seq => exact digit_plain ((decimal_digits _).2 c hc)
  | idx => exact digit_plain ((decimal_digits _).2 c hc)

/-- What a template has before its first block, and after it. -/
def front (event : HdfsEvent) : List Piece := (template event).takeWhile (· ≠ .block)

def back (event : HdfsEvent) : List Piece := (template event).dropWhile (· ≠ .block) |>.tail

theorem template_block (event : HdfsEvent) : template event = front event ++ .block::back event := by
  cases event <;> rfl

theorem front_plain (event : HdfsEvent) : ∀ p ∈ front event, p.IsPlain = true := by
  cases event <;> decide

theorem back_plain (event : HdfsEvent) :
    ∀ p ∈ back event, p = .block ∨ p.IsPlain = true := by
  cases event <;> decide

/-- Text that does not go on with a digit. -/
def Piece.IsBreak : Piece → Bool
  | .text s => s.toList.head?.any (fun c => !c.isDigit)
  | _ => false

theorem back_break (event : HdfsEvent) : ∀ p ∈ (back event).head?, p.IsBreak = true := by
  cases event <;> decide

theorem back_ends (event : HdfsEvent) (blk : ℤ) (d : LineDraw) :
    Ends Char.isDigit ((back event).flatMap (Piece.render blk d)) := by
  have hbreak := back_break event
  intro c hc
  cases hback : back event with
  | nil =>
    rw [hback] at hc
    cases hc
  | cons p ps =>
    have hp := hbreak p (by rw [hback]; rfl)
    rw [hback] at hc
    cases p with
    | text s =>
      cases hs : s.toList with
      | nil => simp [Piece.IsBreak, hs] at hp
      | cons e es =>
        simp only [Piece.IsBreak, hs, List.head?_cons, Option.any_some] at hp
        simp only [List.flatMap_cons, Piece.render, hs, List.cons_append, List.head?_cons,
          Option.some.injEq] at hc
        rw [← hc]
        simpa using hp
    | _ => cases hp

/-- The first place of a block is after plain text, as no block can begin there:
its underscore would be in the text, or be another letter of the block. -/
theorem firstBlock_plain {before v after : List Char} (hbefore : '_' ∉ before)
    (hv : IsBlock Char.isDigit v) (hafter : Ends Char.isDigit after) :
    FirstBlock Char.isDigit (before ++ (v ++ after)) v := by
  refine ⟨before,after,rfl,hv,hafter,?_⟩
  rintro k hk ⟨u,⟨sign',number',hu,_⟩,hpre⟩
  obtain ⟨sign,number,hvtext,_⟩ := hv
  obtain ⟨rest,hrest⟩ := hpre
  have hat : ∀ i < 4, ("blk_".toList)[i]? = (before ++ (v ++ after))[k+i]? := by
    intro i hi
    rw [← List.getElem?_drop, ← hrest, hu, List.append_assoc, List.getElem?_append_left hi]
  have hstart : (before ++ (v ++ after))[before.length]? = some 'b' := by
    rw [List.getElem?_append_right (le_refl _), Nat.sub_self, hvtext]
    rfl
  rcases Nat.lt_or_ge (k+3) before.length with hin | hout
  · have hunder := hat 3 (by decide)
    rw [List.getElem?_append_left hin] at hunder
    exact hbefore (List.mem_of_getElem? hunder.symm)
  · have hletter := hat (before.length-k) (by omega)
    rw [Nat.add_sub_cancel' (le_of_lt hk), hstart] at hletter
    obtain ⟨i,hi⟩ : ∃ i, before.length-k = i+1 ∧ i < 3 := ⟨before.length-k-1,by omega,by omega⟩
    rw [hi.1] at hletter
    match i, hi.2 with
    | 0, _ => cases hletter
    | 1, _ => cases hletter
    | 2, _ => cases hletter

theorem content_split (event : HdfsEvent) (blk : ℤ) (d : LineDraw) :
    content event blk d = (front event).flatMap (Piece.render blk d) ++ (blockText blk ++
      (back event).flatMap (Piece.render blk d)) := by
  rw [content, template_block, List.flatMap_append, List.flatMap_cons]
  rfl

theorem front_text (event : HdfsEvent) (blk : ℤ) (d : LineDraw) :
    ∀ c ∈ (front event).flatMap (Piece.render blk d), Plain c := by
  intro c hc
  obtain ⟨p,hp,hc⟩ := List.mem_flatMap.mp hc
  exact Piece.render_plain blk d (front_plain event p hp) c hc

/-- The block of a line is the one it was written for. -/
theorem content_block (event : HdfsEvent) (blk : ℤ) (d : LineDraw) :
    FirstBlock Char.isDigit (content event blk d) (blockText blk) := by
  rw [content_split]
  exact firstBlock_plain (fun h => (front_text event blk d _ h).2 rfl) (blockText_isBlock blk)
    (back_ends event blk d)

theorem blockText_printable (blk : ℤ) : ∀ c ∈ blockText blk, Printable c := by
  intro c hc
  rcases List.mem_append.mp hc with hc | hc
  · exact CharTable.forall_of_all (p := Printable) rfl c hc
  · exact (integer_plain blk c hc).1

theorem content_printable (event : HdfsEvent) (blk : ℤ) (d : LineDraw) :
    ∀ c ∈ content event blk d, Printable c := by
  intro c hc
  rw [content_split] at hc
  rcases List.mem_append.mp hc with hc | hc
  · exact (front_text event blk d c hc).1
  rcases List.mem_append.mp hc with hc | hc
  · exact blockText_printable blk c hc
  obtain ⟨p,hp,hc⟩ := List.mem_flatMap.mp hc
  rcases back_plain event p hp with rfl | hplain
  · exact blockText_printable blk c hc
  · exact (Piece.render_plain blk d hplain c hc).1

/-- The line that is written, in its parts. -/
def lineOf (ts : Moment) (pid : ℕ) (event : HdfsEvent) (blk : ℤ) (d : LineDraw) : Line where
  date := dateStr ts
  time := timeStr ts
  pid := decimal pid
  level := "INFO".toList
  component := component event
  content := content event blk d

theorem component_word (event : HdfsEvent) : component event ≠ [] ∧
    ∀ c ∈ component event, (isWord c || c = '$' || c = '.') = true := by
  unfold component
  split
  · exact ⟨by decide,CharTable.forall_of_all rfl⟩
  · exact ⟨by decide,CharTable.forall_of_all rfl⟩

theorem component_printable (event : HdfsEvent) : ∀ c ∈ component event, Printable c := by
  unfold component
  split <;> exact CharTable.forall_of_all rfl

theorem lineOf_shaped (ts : Moment) (pid : ℕ) (event : HdfsEvent) (blk : ℤ) (d : LineDraw) :
    (lineOf ts pid event blk d).Shaped Char.isDigit isWord where
  date := by
    refine ⟨by simp [lineOf, dateStr, padded_length],fun c hc => ?_⟩
    simp only [lineOf, dateStr, List.mem_append] at hc
    rcases hc with (hc | hc) | hc <;> exact isDigit_of_ascii (padded_ascii _ _ c hc)
  time := by
    refine ⟨by simp [lineOf, timeStr, padded_length],fun c hc => ?_⟩
    simp only [lineOf, timeStr, List.mem_append] at hc
    rcases hc with (hc | hc) | hc <;> exact isDigit_of_ascii (padded_ascii _ _ c hc)
  pid := decimal_digits pid
  level := ⟨List.cons_ne_nil _ _,CharTable.forall_of_all rfl⟩
  component := component_word event
  content := fun c hc => printable_ne (content_printable event blk d c hc) (by decide)

theorem decimal_printable (n : ℕ) : ∀ c ∈ decimal n, Printable c :=
  fun c hc => (digit_plain ((decimal_digits n).2 c hc)).1

theorem padded_printable (width n : ℕ) : ∀ c ∈ padded width n, Printable c :=
  fun c hc => (digit_plain (isDigit_of_ascii (padded_ascii width n c hc))).1

theorem formatHdfsLine_printable (ts : Moment) (pid : ℕ) (event : HdfsEvent) (blk : ℤ)
    (d : LineDraw) : ∀ c ∈ formatHdfsLine ts pid event blk d, Printable c := by
  have hfixed : ∀ c ∈ [' ',':'] ++ "INFO".toList, Printable c := CharTable.forall_of_all rfl
  have hpadded (n : ℕ) := padded_printable 2 n
  have hpid := decimal_printable pid
  have hcomponent := component_printable event
  have hcontent := content_printable event blk d
  intro c hc
  simp only [formatHdfsLine, dateStr, timeStr, List.mem_append, List.mem_cons, List.not_mem_nil,
    or_false] at hc hfixed
  grind

/-- What `HDFSParser` finds in a line of the generator. -/
structure ReadBack (t : Datetime) (pid : ℕ) (event : HdfsEvent) (blk : ℤ) (d : LineDraw)
    (r : LogRecord) : Prop where
  timestamp : r.timestamp = some t
  pid : r.rawPayload.get? "pid" = some (.str (String.ofList (decimal pid)))
  source : r.source = String.ofList (component event)
  message : r.message = String.ofList (content event blk d)
  severity : r.severity = .info
  noWarning : r.enrichment.get? "parse_warning" = none
  block : r.enrichment.get? "block_id" = some (.str (String.ofList (blockText blk)))

theorem firstBlock_unique {s v w : List Char} (hs : ∀ c ∈ s, c.toNat < 128)
    (hv : FirstBlock Char.isDigit s v) (hw : FirstBlock Char.isDigit s w) : v = w := by
  have hdigit : ∀ c ∈ s, c.isDigit = digit .ascii c := fun c hc => (digit_ascii .ascii (hs c hc)).symm
  have hv := blockId_eq_some.mpr (hv.congr hdigit)
  rw [blockId_eq_some.mpr (hw.congr hdigit)] at hv
  exact (String.ofList_injective (Option.some.inj hv)).symm

/-- The parser reads from a line of this century what the generator wrote. -/
theorem parse_formatHdfsLine (chars : CharTable) (id : UUID) {ts : Moment}
    (hyear : 2000 ≤ ts.date.year ∧ ts.date.year ≤ 2068) (pid : ℕ) (event : HdfsEvent) (blk : ℤ)
    (d : LineDraw) :
    ∃ r, HdfsParser.parse chars id (String.ofList (formatHdfsLine ts pid event blk d)) = .ok r ∧
      ReadBack (ts.instant 0) pid event blk d r := by
  have hprint := formatHdfsLine_printable ts pid event blk d
  have hascii : ∀ c ∈ (String.ofList (formatHdfsLine ts pid event blk d)).toList, c.toNat < 128 := by
    rw [String.toList_ofList]
    exact fun c hc => (hprint c hc).2.trans (by decide)
  have haccepted : Accepted (String.ofList (formatHdfsLine ts pid event blk d))
      (lineOf ts pid event blk d) (ts.instant 0) :=
    { shaped := lineOf_shaped ts pid event blk d
      text := Or.inl String.toList_ofList
      instant := moment_strftime ts hyear }
  obtain ⟨r,hr,hreads⟩ := parse_accepted chars id hascii haccepted
  have hfirst := content_block event blk d
  have hhas : HasBlock Char.isDigit (content event blk d) := by
    obtain ⟨before,after,h,hblock,_⟩ := hfirst
    exact ⟨_,hblock,before,after,by rw [h, List.append_assoc]⟩
  obtain ⟨v,hv,hblock⟩ := hreads.block hhas
  have hsame : v = blockText blk := firstBlock_unique
    (fun c hc => (content_printable event blk d c hc).2.trans (by decide)) hv hfirst
  exact ⟨r,hr,
    { timestamp := hreads.timestamp
      pid := hreads.pid
      source := hreads.source
      message := hreads.message
      severity := hreads.severity
      noWarning := hreads.parseWarning
      block := by rw [hblock, hsame] }⟩

/-- The moment of a line is one of the first days of 2024. -/
theorem hdfsTs_year (d : LineDraw) : 2000 ≤ (hdfsTs d).date.year ∧ (hdfsTs d).date.year ≤ 2068 := by
  have hseconds := (randint_mem (Nat.zero_le (30*24*3600)) d.seconds).2
  have hyear := hdfsBase.addDays_year (hdfsSeconds d/86400)
  have hbase : hdfsBase.year = 2024 := rfl
  have hdays : hdfsSeconds d/86400 ≤ 30 := by
    unfold hdfsSeconds
    omega
  simp only [hdfsTs, secondsAfter]
  omega

theorem hdfsTs_instant (d : LineDraw) :
    (hdfsTs d).instant 0 = midnight hdfsBase + hdfsSeconds d*1000000 := by
  rw [hdfsTs, secondsAfter_instant]
  simp

end PipelineX.SyntheticLogs
