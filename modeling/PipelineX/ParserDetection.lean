import PipelineX.ParserFactory

/-!
# Detection against parsing

A line is claimed by at most one parser. The claims are narrower than what the
parsers take in two places: a row may have any first field and a BGL line any
label.
-/

set_option autoImplicit false

namespace PipelineX.ParserDetection
open PipelineX.Records PipelineX.Regex PipelineX.Strptime PipelineX.Words PipelineX.Parsers
open PipelineX.HdfsFormat

section
variable {chars : CharTable} (letters : LetterTable chars) (raw : String)

/-- A line of the HDFS format with a real date and time. -/
def IsLine (chars : CharTable) (raw : String) : Prop :=
  ∃ (l : Line) (t : Datetime), l.Shaped (digit chars) chars.word ∧
    (raw.toList = l.render ∨ raw.toList = l.render ++ ['\n']) ∧
    strptime chars (l.date ++ l.time) short = .ok t

/-- A row of nine fields or more of which the second and third are a date and a
time. -/
def IsRow (chars : CharTable) (raw : String) : Prop :=
  ∃ row date time t, Csv.next raw.toList = .ok (some row) ∧ 9 ≤ row.length ∧
    row[1]? = some date ∧ row[2]? = some time ∧ strptime chars (date ++ time) short = .ok t

/-- A line of ten words or more of which the fifth is a timestamp. -/
def IsBgl (chars : CharTable) (raw : String) : Prop :=
  10 ≤ (words chars.space raw.toList).length ∧
    ∃ time t, (words chars.space raw.toList)[4]? = some time ∧ IsStamp chars time t

/-- There are digits and nothing else before the first comma. -/
def Numbered : Prop :=
  raw.toList.takeWhile (· ≠ ',') ≠ [] ∧
    ∀ c ∈ raw.toList.takeWhile (· ≠ ','), letters.digit c = true

/-- The first word is a dash or made of capital letters. -/
def Labelled : Prop :=
  ∃ w, (words chars.space raw.toList)[0]? = some w ∧
    (w = ['-'] ∨ (letters.isUpper w = true ∧ letters.isAlpha w = true))

variable {raw}

theorem hdfs_accepts (id : UUID) : (hdfsParser chars).Accepts id raw ↔ IsLine chars raw := by
  simp only [IParser.Accepts, hdfsParser]
  constructor
  · rintro ⟨r,hr⟩
    unfold HdfsParser.parse at hr
    split at hr
    · cases hr
    · next a ha =>
      obtain ⟨l,hl,hs,_,hg,hrest⟩ := match_lineRe.mp ha
      obtain ⟨hdate,htime,_⟩ := group_of_groups hg
      rw [hdate, htime] at hr
      split at hr
      · cases hr
      · next t ht =>
        refine ⟨l,t,hl,?_,ht⟩
        rcases hrest with hnil | hnewline
        · exact Or.inl (by rw [hs, hnil, List.append_nil])
        · exact Or.inr (by rw [hs, hnewline])
  · rintro ⟨l,t,hl,htext,ht⟩
    obtain ⟨a,ha,hg⟩ := match_text hl htext
    obtain ⟨hdate,htime,_⟩ := group_of_groups hg
    refine ⟨HdfsParser.record chars id raw t a,?_⟩
    unfold HdfsParser.parse
    rw [ha]
    dsimp only
    rw [hdate, htime, ht]

theorem csv_accepts (id : UUID) :
    (hdfsStructuredCsvParser letters).Accepts id raw ↔ IsRow chars raw := by
  simp only [IParser.Accepts, hdfsStructuredCsvParser]
  constructor
  · rintro ⟨r,hr⟩
    unfold HdfsStructuredCsvParser.parse at hr
    split at hr
    · cases hr
    · cases hr
    · next hrow =>
      split at hr
      · cases hr
      · next t ht => exact ⟨_,_,_,t,hrow,by simp,rfl,rfl,ht⟩
    · cases hr
  · rintro ⟨row,date,time,t,hrow,hlen,hdate,htime,ht⟩
    match row, hlen with
    | lineId::date'::time'::pid::level::component::content::eventId::template::more, _ =>
      obtain rfl := Option.some.inj hdate
      obtain rfl := Option.some.inj htime
      unfold HdfsStructuredCsvParser.parse
      rw [hrow]
      dsimp only
      rw [ht]
      exact ⟨_,rfl⟩

theorem bgl_accepts (id : UUID) : (bglParser letters).Accepts id raw ↔ IsBgl chars raw := by
  simp only [IParser.Accepts, bglParser]
  exact BglFormat.parse_accepts id

theorem csv_claims :
    (hdfsStructuredCsvParser letters).canParse raw = true ↔ Numbered letters raw := by
  simp [hdfsStructuredCsvParser, HdfsStructuredCsvParser.canParse, LetterTable.isDigit, Numbered]

theorem bgl_claims : (bglParser letters).canParse raw = true ↔ Labelled letters raw := by
  have hfirst : (split chars.space 1 raw.toList)[0]? = (words chars.space raw.toList)[0]? := by
    by_cases hdrop : raw.toList.dropWhile chars.space = []
    · rw [split_nil 1 hdrop, words_eq_nil hdrop]
    · rw [split_succ 0 hdrop, words_cons hdrop]
      rfl
  change BglParser.canParse letters raw = true ↔ _
  unfold BglParser.canParse Labelled
  rw [← hfirst]
  cases split chars.space 1 raw.toList with
  | nil => simp
  | cons first rest => simp

/-- Characters of a class and a text after them. -/
theorem yields_run {sep : String} {least : ℕ} {most : Option ℕ} {p : Char → Bool}
    {rs : List Regex} {n : ℕ} {w rest : List Char} {g : List (String × List Char)} :
    (cat (.many true least most p::text sep::rs)).Yields n w g rest ↔
      ∃ v w', w = v ++ sep.toList ++ w' ∧
        ((∀ c ∈ v, p c = true) ∧ least ≤ v.length ∧ ∀ m, most = some m → v.length ≤ m) ∧
        (cat rs).Yields (n+v.length+sep.toList.length) w' g rest := by
  constructor
  · intro h
    obtain ⟨v,w₁,g₁,g₂,rfl,rfl,hmany,hafter⟩ := yields_cat_cons.mp h
    obtain ⟨w₂,w',g₃,g',rfl,rfl,hsep,hrest⟩ := yields_cat_cons.mp hafter
    obtain ⟨rfl,hv⟩ := yields_many.mp hmany
    obtain ⟨rfl,rfl⟩ := yields_text.mp hsep
    exact ⟨v,w',by simp,hv,hrest⟩
  · rintro ⟨v,w',rfl,hv,h⟩
    refine yields_cat_cons.mpr ⟨v,sep.toList ++ w',[],g,by simp,rfl,?_,?_⟩
    · exact yields_many.mpr ⟨rfl,hv⟩
    · exact yields_cat_cons.mpr ⟨_,w',[],g,rfl,rfl,yields_text.mpr ⟨rfl,rfl⟩,h⟩

/-- A date, a time and a number of a process, each before a blank. -/
theorem hdfs_claims : (hdfsParser chars).canParse raw = true ↔ ∃ date time pid rest,
    (date.length = 6 ∧ ∀ c ∈ date, digit chars c = true) ∧
    (time.length = 6 ∧ ∀ c ∈ time, digit chars c = true) ∧
    (pid ≠ [] ∧ ∀ c ∈ pid, digit chars c = true) ∧
    raw.toList = date ++ ' '::(time ++ ' '::(pid ++ ' '::rest)) := by
  simp only [hdfsParser, HdfsParser.canParse, match_isSome, HdfsParser.shapeRe]
  simp only [yields_from_start, yields_run, length_six, some_char]
  constructor
  · rintro ⟨_,g,rest,hs,date,_,rfl,hdate,time,_,rfl,htime,pid,_,rfl,hpid,hnone⟩
    obtain ⟨rfl,_⟩ := yields_empty.mp hnone
    exact ⟨date,time,pid,rest,hdate.symm,htime.symm,hpid.symm,by simpa using hs⟩
  · rintro ⟨date,time,pid,rest,hdate,htime,hpid,hs⟩
    exact ⟨_,[],rest,by simpa using hs,date,_,rfl,hdate.symm,time,_,rfl,htime.symm,pid,_,rfl,
      hpid.symm,yields_empty.mpr ⟨rfl,rfl⟩⟩

theorem isLine_claimed (h : IsLine chars raw) : (hdfsParser chars).canParse raw = true := by
  obtain ⟨l,_,hl,htext,_⟩ := h
  obtain ⟨rest,hs⟩ : ∃ rest, raw.toList = l.render ++ rest := by
    rcases htext with hs | hs
    · exact ⟨[],by rw [hs, List.append_nil]⟩
    · exact ⟨['\n'],hs⟩
  refine hdfs_claims.mpr ⟨l.date,l.time,l.pid,l.level ++ ' '::(l.component ++ ':':: ' '::
    (l.content ++ rest)),hl.date,hl.time,hl.pid,?_⟩
  rw [hs]
  simp [Line.render, HdfsStructuredCsvParser.reconstructRaw]

/-- A line that starts with a digit has no label. -/
theorem not_labelled {c : Char} {rest : List Char} (hs : raw.toList = c::rest)
    (hc : letters.digit c = true) : ¬Labelled letters raw := by
  rintro ⟨w,hw,hlabel⟩
  have hspace := letters.space_of_digit c hc
  have hdrop : raw.toList.dropWhile chars.space = c::rest := by
    rw [hs, List.dropWhile_cons_of_neg (by simp [hspace])]
  have hword : w = c::rest.takeWhile (fun d => !chars.space d) := by
    rw [words_cons (by rw [hdrop]; simp), hdrop, List.takeWhile_cons_of_pos (by simp [hspace])] at hw
    exact (Option.some.inj hw).symm
  rcases hlabel with hdash | ⟨_,halpha⟩
  · rw [hword] at hdash
    obtain rfl := (List.cons.inj hdash).1
    rw [letters.digit_ascii '-' (by decide)] at hc
    cases hc
  · rw [hword, LetterTable.isAlpha, List.isEmpty_cons, List.all_cons,
      letters.alpha_of_digit c hc] at halpha
    cases halpha

/-- No line is claimed by two parsers. -/
theorem numbered_alone (h : Numbered letters raw) :
    (hdfsParser chars).canParse raw = false ∧ ¬Labelled letters raw := by
  obtain ⟨hne,hdigits⟩ := h
  constructor
  · rw [Bool.eq_false_iff]
    intro hclaims
    obtain ⟨date,_,_,_,⟨_,hdate⟩,_,_,hs⟩ := hdfs_claims.mp hclaims
    have hnocomma : ∀ c ∈ date, decide (c ≠ ',') = true := by
      intro c hc
      refine decide_eq_true ?_
      rintro rfl
      have hcomma := hdate ',' hc
      rw [digit, chars.decimal_ascii ',' (by decide)] at hcomma
      cases hcomma
    have hblank := hdigits ' ' (by
      rw [hs, List.takeWhile_append_of_pos hnocomma, List.takeWhile_cons_of_pos (by decide)]
      exact List.mem_append_right _ List.mem_cons_self)
    rw [letters.digit_ascii ' ' (by decide)] at hblank
    cases hblank
  · cases hs : raw.toList with
    | nil =>
      rw [hs] at hne
      exact absurd rfl hne
    | cons c rest =>
      have hc : c ≠ ',' := by
        rintro rfl
        rw [hs, List.takeWhile_cons_of_neg (by decide)] at hne
        exact hne rfl
      rw [hs, List.takeWhile_cons_of_pos (by simpa using hc)] at hdigits
      exact not_labelled letters hs (hdigits c List.mem_cons_self)

theorem labelled_alone (h : Labelled letters raw) : (hdfsParser chars).canParse raw = false := by
  rw [Bool.eq_false_iff]
  intro hclaims
  obtain ⟨date,_,_,_,⟨hlen,hdate⟩,_,_,hs⟩ := hdfs_claims.mp hclaims
  have hne : date ≠ [] := List.ne_nil_of_length_pos (by omega)
  obtain ⟨c,date,rfl⟩ := List.exists_cons_of_ne_nil hne
  exact not_labelled letters hs (letters.digit_of_decimal c (hdate c List.mem_cons_self)) h

variable {letters} {f : ParserFactory} {id : UUID}

theorem claims_unique
    (hf : f.parsers = [hdfsParser chars,hdfsStructuredCsvParser letters,bglParser letters])
    {p q : IParser} (hp : p ∈ f.parsers) (hq : q ∈ f.parsers) (hpc : p.canParse raw = true)
    (hqc : q.canParse raw = true) : p = q := by
  have hcsv (h : (hdfsStructuredCsvParser letters).canParse raw = true) :
      (hdfsParser chars).canParse raw ≠ true ∧ (bglParser letters).canParse raw ≠ true := by
    obtain ⟨hhdfs,hlabel⟩ := numbered_alone letters ((csv_claims letters).mp h)
    exact ⟨by simp [hhdfs],fun hbgl => hlabel ((bgl_claims letters).mp hbgl)⟩
  have hbgl (h : (bglParser letters).canParse raw = true) :
      (hdfsParser chars).canParse raw ≠ true := by
    simp [labelled_alone letters ((bgl_claims letters).mp h)]
  simp only [hf, List.mem_cons, List.not_mem_nil, or_false] at hp hq
  rcases hp with rfl | rfl | rfl
  · rcases hq with rfl | rfl | rfl
    · rfl
    · exact absurd hpc (hcsv hqc).1
    · exact absurd hpc (hbgl hqc)
  · rcases hq with rfl | rfl | rfl
    · exact absurd hqc (hcsv hpc).1
    · rfl
    · exact absurd hqc (hcsv hpc).2
  · rcases hq with rfl | rfl | rfl
    · exact absurd hqc (hbgl hpc)
    · exact absurd hpc (hcsv hqc).2
    · rfl

/-- The parser that is returned is the only one that claims the line. -/
theorem detect_ok_iff
    (hf : f.parsers = [hdfsParser chars,hdfsStructuredCsvParser letters,bglParser letters])
    (p : IParser) : f.detect chars raw = .ok p ↔ p ∈ f.parsers ∧ p.canParse raw = true := by
  unfold ParserFactory.detect
  cases hfound : f.parsers.find? (fun p => p.canParse raw) with
  | none =>
    have hnone := List.find?_eq_none.mp hfound
    constructor
    · intro h
      cases h
    · rintro ⟨hp,hclaims⟩
      exact absurd hclaims (hnone p hp)
  | some q =>
    have hq := List.mem_of_find?_eq_some hfound
    have hclaims := List.find?_some (p := fun p : IParser => p.canParse raw) hfound
    constructor
    · intro h
      obtain rfl := Except.ok.inj h
      exact ⟨hq,hclaims⟩
    · rintro ⟨hp,hpc⟩
      rw [claims_unique hf hq hp hclaims hpc]

theorem detect_error {e : PyError} (h : f.detect chars raw = .error e) :
    (∃ message, e = .parserError message) ∧ ∀ p ∈ f.parsers, p.canParse raw = false := by
  unfold ParserFactory.detect at h
  split at h
  · cases h
  · next hfound =>
    refine ⟨⟨_,(Except.error.inj h).symm⟩,fun p hp => ?_⟩
    simpa using List.find?_eq_none.mp hfound p hp

/-- The parser that claims the line takes it. -/
theorem agrees_of_claim
    (hf : f.parsers = [hdfsParser chars,hdfsStructuredCsvParser letters,bglParser letters])
    {q : IParser} (hmem : q ∈ f.parsers) (hclaims : q.canParse raw = true)
    (hq : q.Accepts id raw) : Agrees f chars id raw := by
  have hdetect := (detect_ok_iff hf q).mpr ⟨hmem,hclaims⟩
  constructor
  · intro _ _ _
    exact ⟨q,hmem,hdetect,hq⟩
  · intro message hraised
    rw [hdetect] at hraised
    cases hraised

/-- A parser that takes a line of the three formats is the one of its format. -/
theorem accepts_cases
    (hf : f.parsers = [hdfsParser chars,hdfsStructuredCsvParser letters,bglParser letters])
    {p : IParser} (hp : p ∈ f.parsers) (h : p.Accepts id raw) :
    (p = hdfsParser chars ∧ IsLine chars raw) ∨
    (p = hdfsStructuredCsvParser letters ∧ IsRow chars raw) ∨
    (p = bglParser letters ∧ IsBgl chars raw) := by
  simp only [hf, List.mem_cons, List.not_mem_nil, or_false] at hp
  rcases hp with rfl | rfl | rfl
  · exact Or.inl ⟨rfl,(hdfs_accepts id).mp h⟩
  · exact Or.inr (Or.inl ⟨rfl,(csv_accepts letters id).mp h⟩)
  · exact Or.inr (Or.inr ⟨rfl,(bgl_accepts letters id).mp h⟩)

theorem agrees_kind
    (hf : f.parsers = [hdfsParser chars,hdfsStructuredCsvParser letters,bglParser letters])
    (h : Agrees f chars id raw) {p : IParser} (hp : p ∈ f.parsers) (haccepts : p.Accepts id raw) :
    IsLine chars raw ∨ (IsRow chars raw ∧ Numbered letters raw) ∨
      (IsBgl chars raw ∧ Labelled letters raw) := by
  obtain ⟨q,hq,hdetect,hok⟩ := h.accepted p hp haccepts
  have hclaims := ((detect_ok_iff hf q).mp hdetect).2
  rcases accepts_cases hf hq hok with ⟨_,hline⟩ | ⟨rfl,hrow⟩ | ⟨rfl,hbgl⟩
  · exact Or.inl hline
  · exact Or.inr (Or.inl ⟨hrow,(csv_claims letters).mp hclaims⟩)
  · exact Or.inr (Or.inr ⟨hbgl,(bgl_claims letters).mp hclaims⟩)

theorem agrees_of_refused (h : ∀ p ∈ f.parsers, ¬p.Accepts id raw) : Agrees f chars id raw :=
  ⟨fun p hp haccepts => absurd haccepts (h p hp),fun _ _ => h⟩

theorem agrees_iff
    (hf : f.parsers = [hdfsParser chars,hdfsStructuredCsvParser letters,bglParser letters]) :
    Agrees f chars id raw ↔ IsLine chars raw ∨ (IsRow chars raw ∧ Numbered letters raw) ∨
      (IsBgl chars raw ∧ Labelled letters raw) ∨ (¬IsRow chars raw ∧ ¬IsBgl chars raw) := by
  have hhdfs : hdfsParser chars ∈ f.parsers := by simp [hf]
  have hcsv : hdfsStructuredCsvParser letters ∈ f.parsers := by simp [hf]
  have hbglParser : bglParser letters ∈ f.parsers := by simp [hf]
  constructor
  · intro h
    rw [← or_assoc, ← or_assoc, or_assoc (a := IsLine chars raw)]
    by_cases hrow : IsRow chars raw
    · exact Or.inl (agrees_kind hf h hcsv ((csv_accepts letters id).mpr hrow))
    · by_cases hbgl : IsBgl chars raw
      · exact Or.inl (agrees_kind hf h hbglParser ((bgl_accepts letters id).mpr hbgl))
      · exact Or.inr ⟨hrow,hbgl⟩
  · intro h
    by_cases hline : IsLine chars raw
    · exact agrees_of_claim hf hhdfs (isLine_claimed hline) ((hdfs_accepts id).mpr hline)
    · rcases h with hline' | ⟨hrow,hnumbered⟩ | ⟨hbgl,hlabelled⟩ | ⟨hrow,hbgl⟩
      · exact absurd hline' hline
      · exact agrees_of_claim hf hcsv ((csv_claims letters).mpr hnumbered)
          ((csv_accepts letters id).mpr hrow)
      · exact agrees_of_claim hf hbglParser ((bgl_claims letters).mpr hlabelled)
          ((bgl_accepts letters id).mpr hbgl)
      · refine agrees_of_refused fun p hp haccepts => ?_
        rcases accepts_cases hf hp haccepts with ⟨_,h⟩ | ⟨_,h⟩ | ⟨_,h⟩
        · exact hline h
        · exact hrow h
        · exact hbgl h

end

/-- Detection goes by the claims alone: the parser it returns is the only one
that claims the line, and an error means that none does. This agrees with
parsing on HDFS lines, on rows with a number before the first comma, on BGL
lines with a dash or a label in capitals, and on what is neither a row nor a BGL
line. -/
theorem detect_agrees_iff {chars : CharTable} (letters : LetterTable chars) (id : UUID)
    (raw : String) : ∃ f, defaultFactory letters = .ok f ∧
      (∀ p, f.detect chars raw = .ok p ↔ p ∈ f.parsers ∧ p.canParse raw = true) ∧
      (∀ e, f.detect chars raw = .error e →
        (∃ message, e = .parserError message) ∧ ∀ p ∈ f.parsers, p.canParse raw = false) ∧
      (Agrees f chars id raw ↔ IsLine chars raw ∨ (IsRow chars raw ∧ Numbered letters raw) ∨
        (IsBgl chars raw ∧ Labelled letters raw) ∨ (¬IsRow chars raw ∧ ¬IsBgl chars raw)) := by
  obtain ⟨f,hf,hparsers⟩ := defaultFactory_parsers letters
  exact ⟨f,hf,detect_ok_iff hparsers,fun _ he => detect_error he,agrees_iff hparsers⟩

/-- A BGL line whose label is not in capitals. -/
def lowerLabel : String :=
  "appread 1117838570 2005.06.03 R02 2005-06-03-15.42.50.675872 R02 RAS KERNEL INFO x"

/-- A BGL line that starts like an HDFS line. -/
def hdfsShaped : String := "081109 203615 148 R02 2005-06-03-15.42.50.675872 R02 RAS KERNEL INFO x"

theorem accepts_of_isOk {p : IParser} {id : UUID} {raw : String}
    (h : (p.parse id raw).toOption.isSome = true) : p.Accepts id raw := by
  unfold IParser.Accepts
  cases hp : p.parse id raw with
  | ok r => exact ⟨r,rfl⟩
  | error e =>
    rw [hp] at h
    cases h

/-- The BGL parser takes both lines. Nobody claims the first, and the parser
that claims the second refuses it. -/
theorem detection_misses : ∃ f, defaultFactory LetterTable.ascii = .ok f ∧
    ¬Agrees f .ascii 0 lowerLabel ∧ ¬Agrees f .ascii 0 hdfsShaped := by
  obtain ⟨f,hf,hparsers⟩ := defaultFactory_parsers LetterTable.ascii
  have hmem : bglParser .ascii ∈ f.parsers := by simp [hparsers]
  refine ⟨f,hf,fun h => ?_,fun h => ?_⟩
  · have hnone : ∀ p ∈ f.parsers, p.canParse lowerLabel = false := by
      rw [hparsers, List.forall_mem_cons, List.forall_mem_cons, List.forall_mem_singleton]
      exact ⟨by decide +kernel,by decide +kernel,by decide +kernel⟩
    cases hdetect : f.detect .ascii lowerLabel with
    | ok q =>
      obtain ⟨hq,hclaims⟩ := (detect_ok_iff hparsers q).mp hdetect
      rw [hnone q hq] at hclaims
      cases hclaims
    | error e =>
      obtain ⟨⟨message,rfl⟩,_⟩ := detect_error hdetect
      exact h.raised message hdetect _ hmem (accepts_of_isOk (by decide +kernel))
  · have hhdfs : f.detect .ascii hdfsShaped = .ok (hdfsParser .ascii) :=
      (detect_ok_iff hparsers _).mpr ⟨by simp [hparsers],by decide +kernel⟩
    obtain ⟨q,_,hdetect,hq⟩ := h.accepted _ hmem (accepts_of_isOk (by decide +kernel))
    rw [hhdfs] at hdetect
    obtain rfl := Except.ok.inj hdetect
    obtain ⟨r,hr⟩ := hq
    have hrefused : ((hdfsParser .ascii).parse 0 hdfsShaped).toOption.isSome = false := by
      decide +kernel
    rw [hr] at hrefused
    cases hrefused

end PipelineX.ParserDetection
