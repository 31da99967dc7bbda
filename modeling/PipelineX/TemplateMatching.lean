import PipelineX.TemplateMatcher
import PipelineX.Stages

/-!
# The first template that fits

A pattern that is made of a template matches the messages that start with a
filling of its wildcards, whatever way the pieces can be placed. The stage
takes the first row of the file whose template fits.
-/

set_option autoImplicit false

namespace PipelineX.TemplateMatcher
open PipelineX.Records PipelineX.Regex PipelineX.Stages

def wildcards : List (List Char) := ["<*>".toList,"[*]".toList]

/-- The pieces with a text in each of the places between them. -/
def fill : List (List Char) → List (List Char) → List Char
  | [], _ => []
  | piece::pieces, words => piece ++ (List.zipWith (· ++ ·) words pieces).flatten

/-- The template is the pieces with a wildcard between any two of them, and no
wildcard is left in a piece. -/
def Cut (template : List Char) (pieces : List (List Char)) : Prop :=
  (∀ p ∈ pieces, ∀ m ∈ wildcards, ¬ m <:+: p) ∧
  ∃ marks, (∀ m ∈ marks, m ∈ wildcards) ∧ marks.length+1 = pieces.length ∧
    template = fill pieces marks

/-- The message is a filling of the template and something after it. -/
def Fits (template message : String) : Prop :=
  ∃ words rest, words.length+1 = (split template.toList).length ∧
    message.toList = fill (split template.toList) words ++ rest

/-- The row's event id and template, if it has both. -/
def declaredRow (row : OrderedDict String (Option String)) : Option (String × String) :=
  let eid := (Csv.column row "EventId").getD ""
  let template := (Csv.column row "EventTemplate").getD ""
  if eid = "" ∨ template = "" then none else some (eid,template)

theorem fill_cons (p q x : List Char) (ps ws : List (List Char)) :
    fill (p::q::ps) (x::ws) = p ++ (x ++ fill (q::ps) ws) := by
  simp [fill]

theorem splitFrom_cons {c : Char} {cs : List Char} (h : ∀ m ∈ wildcards, ¬ m <+: c::cs)
    (piece : List Char) : splitFrom piece (c::cs) = splitFrom (piece ++ [c]) cs := by
  rw [splitFrom]
  · rintro cs' rfl rfl
    exact h "<*>".toList (by simp [wildcards]) ⟨cs',rfl⟩
  · rintro cs' rfl rfl
    exact h "[*]".toList (by simp [wildcards]) ⟨cs',rfl⟩

theorem splitFrom_wildcard {m : List Char} (hm : m ∈ wildcards) (piece cs : List Char) :
    splitFrom piece (m ++ cs) = piece :: splitFrom [] cs := by
  simp only [wildcards, List.mem_cons, List.not_mem_nil, or_false] at hm
  rcases hm with rfl | rfl <;> rfl

/-- Either a wildcard is next, or the next character is one of the piece. -/
theorem wildcard_or (c : Char) (cs : List Char) :
    (∃ m ∈ wildcards, ∃ rest, c::cs = m ++ rest) ∨ ∀ m ∈ wildcards, ¬ m <+: c::cs := by
  by_cases h : ∃ m ∈ wildcards, m <+: c::cs
  · obtain ⟨m,hm,rest,hrest⟩ := h
    exact Or.inl ⟨m,hm,rest,hrest.symm⟩
  · exact Or.inr fun m hm hp => h ⟨m,hm,hp⟩

theorem no_wildcard_nil {m : List Char} (hm : m ∈ wildcards) : ¬ m <:+: [] := by
  intro hin
  rw [List.infix_nil.mp hin] at hm
  simp [wildcards] at hm

theorem Cut.nil : Cut [] [[]] :=
  ⟨fun _ hp _ hm => List.mem_singleton.mp hp ▸ no_wildcard_nil hm,[],by simp [fill]⟩

theorem Cut.wildcard {cs m : List Char} {pieces : List (List Char)} (hm : m ∈ wildcards)
    (h : Cut cs pieces) (hne : pieces ≠ []) : Cut (m ++ cs) ([]::pieces) := by
  obtain ⟨piece,pieces,rfl⟩ := List.exists_cons_of_ne_nil hne
  obtain ⟨hfree,marks,hmarks,hcount,hfill⟩ := h
  refine ⟨List.forall_mem_cons.mpr ⟨fun _ => no_wildcard_nil,hfree⟩,m::marks,
    List.forall_mem_cons.mpr ⟨hm,hmarks⟩,by simpa using hcount,?_⟩
  rw [fill_cons, List.nil_append, ← hfill]

theorem Cut.cons {c : Char} {cs piece : List Char} {pieces : List (List Char)}
    (hno : ∀ m ∈ wildcards, ¬ m <+: c::piece) (h : Cut cs (piece::pieces)) :
    Cut (c::cs) ((c::piece)::pieces) := by
  obtain ⟨hfree,marks,hmarks,hcount,hfill⟩ := h
  obtain ⟨hpiece,hpieces⟩ := List.forall_mem_cons.mp hfree
  refine ⟨List.forall_mem_cons.mpr ⟨fun m hm hin => ?_,hpieces⟩,marks,hmarks,hcount,?_⟩
  · rcases List.infix_cons_iff.mp hin with hin | hin
    · exact hno m hm hin
    · exact hpiece m hm hin
  · rw [hfill]
    rfl

/-- The first piece goes up to the first wildcard, and what had been read of it
before is in front. -/
theorem splitFrom_cut (cs : List Char) : ∃ piece pieces, piece <+: cs ∧
    (∀ before, splitFrom before cs = (before ++ piece)::pieces) ∧ Cut cs (piece::pieces) := by
  induction hn : cs.length using Nat.strong_induction_on generalizing cs with
  | _ n ih =>
    cases cs with
    | nil => exact ⟨[],[],List.nil_prefix,fun before => by simp [splitFrom],Cut.nil⟩
    | cons c cs =>
      rcases wildcard_or c cs with ⟨m,hm,rest,hrest⟩ | hno
      · have hlen : rest.length < n := by
          have hpos : m.length ≠ 0 := by
            intro h0
            simp [wildcards, List.eq_nil_of_length_eq_zero h0] at hm
          rw [← hn, hrest, List.length_append]
          omega
        obtain ⟨piece,pieces,_,hsplit,hcut⟩ := ih _ hlen rest rfl
        refine ⟨[],piece::pieces,List.nil_prefix,fun before => ?_,?_⟩
        · rw [hrest, splitFrom_wildcard hm, hsplit, List.nil_append, List.append_nil]
        · rw [hrest]
          exact hcut.wildcard hm (List.cons_ne_nil _ _)
      · obtain ⟨piece,pieces,hpre,hsplit,hcut⟩ := ih _ (by simp [← hn]) cs rfl
        have hpre' : c::piece <+: c::cs := (List.prefix_cons_inj c).mpr hpre
        refine ⟨c::piece,pieces,hpre',fun before => ?_,
          hcut.cons fun m hm hin => hno m hm (hin.trans hpre')⟩
        rw [splitFrom_cons hno, hsplit, List.append_assoc, List.singleton_append]

theorem split_cut (template : List Char) : Cut template (split template) := by
  obtain ⟨piece,pieces,_,hsplit,hcut⟩ := splitFrom_cut template
  rwa [split, hsplit, List.nil_append]

theorem split_cons (template : List Char) :
    ∃ piece pieces, split template = piece::pieces := by
  obtain ⟨piece,pieces,_,hsplit,_⟩ := splitFrom_cut template
  exact ⟨piece,pieces,hsplit []⟩

theorem yields_anything {n : ℕ} {w rest : List Char} {g : List (String × List Char)} :
    anything.Yields n w g rest ↔ g = [] := by
  simp [anything]

/-- The pieces are found one after the other, with any texts between them. -/
theorem yields_join (piece : List Char) (pieces : List (List Char)) {n : ℕ} {w rest : List Char}
    {g : List (String × List Char)} :
    (cat (join (piece::pieces))).Yields n w g rest ↔
      g = [] ∧ ∃ words, words.length = pieces.length ∧ w = fill (piece::pieces) words := by
  induction pieces generalizing piece n w g with
  | nil =>
    rw [join, yields_cat_cons]
    constructor
    · rintro ⟨w₁,w₂,g₁,g₂,rfl,rfl,h₁,h₂⟩
      obtain ⟨rfl,rfl⟩ := (yields_literal piece).mp h₁
      obtain ⟨rfl,rfl⟩ := yields_empty.mp h₂
      exact ⟨rfl,[],rfl,by simp [fill]⟩
    · rintro ⟨rfl,words,_,rfl⟩
      exact ⟨piece,[],[],[],by simp [fill],rfl,(yields_literal piece).mpr ⟨rfl,rfl⟩,
        yields_empty.mpr ⟨rfl,rfl⟩⟩
  | cons next pieces ih =>
    simp only [join, yields_cat_cons]
    constructor
    · rintro ⟨w₁,_,g₁,_,rfl,rfl,h₁,x,w₂,g₂,g₃,rfl,rfl,h₂,h₃⟩
      obtain ⟨rfl,rfl⟩ := (yields_literal piece).mp h₁
      obtain rfl := yields_anything.mp h₂
      obtain ⟨rfl,words,hlen,rfl⟩ := (ih next).mp h₃
      exact ⟨rfl,x::words,by simp [hlen],(fill_cons _ _ _ _ _).symm⟩
    · rintro ⟨rfl,words,hlen,rfl⟩
      cases words with
      | nil => cases hlen
      | cons x words =>
        refine ⟨piece,_,[],[],fill_cons _ _ _ _ _,rfl,(yields_literal piece).mpr ⟨rfl,rfl⟩,
          x,_,[],[],rfl,rfl,yields_anything.mpr rfl,?_⟩
        exact (ih next).mpr ⟨rfl,words,Nat.succ.inj hlen,rfl⟩

theorem match_pattern (template message : String) :
    ((pattern template.toList).match message.toList).isSome = true ↔ Fits template message := by
  obtain ⟨piece,pieces,hsplit⟩ := split_cons template.toList
  have hyields (w rest : List Char) (g : List (String × List Char)) :
      (pattern template.toList).Yields 0 w g rest ↔
        g = [] ∧ ∃ words, words.length = pieces.length ∧ w = fill (piece::pieces) words := by
    rw [pattern, yields_cat_cons, hsplit]
    constructor
    · rintro ⟨w₁,w₂,g₁,g₂,rfl,rfl,h₁,h₂⟩
      obtain ⟨rfl,rfl,_⟩ := yields_start.mp h₁
      exact (yields_join piece pieces).mp h₂
    · intro h
      exact ⟨[],w,[],g,rfl,rfl,yields_start.mpr ⟨rfl,rfl,rfl⟩,(yields_join piece pieces).mpr h⟩
  rw [match_isSome, Fits, hsplit]
  constructor
  · rintro ⟨w,g,rest,hs,hy⟩
    obtain ⟨_,words,hlen,rfl⟩ := (hyields _ _ _).mp hy
    exact ⟨words,rest,by simp [hlen],hs⟩
  · rintro ⟨words,rest,hlen,hs⟩
    exact ⟨_,[],rest,hs,(hyields _ _ _).mpr ⟨rfl,words,Nat.succ.inj hlen,rfl⟩⟩

theorem fits_of_filled {template message : String} {words : List (List Char)}
    (hlen : words.length+1 = (split template.toList).length)
    (h : message.toList = fill (split template.toList) words) : Fits template message :=
  ⟨words,[],hlen,by rw [h, List.append_nil]⟩

theorem compileRow_eq (row : OrderedDict String (Option String)) :
    compileRow row = (declaredRow row).map (fun p => (p.1,pattern p.2.toList)) := by
  unfold compileRow declaredRow
  dsimp only
  split <;> rfl

theorem compileTemplates_ok {text : List Char} {patterns : List (String × Regex)}
    (h : compileTemplates text = .ok patterns) :
    ∃ rows, Csv.dictRows (TextFile.translate text) = .ok rows ∧
      patterns = (rows.filterMap declaredRow).map (fun p => (p.1,pattern p.2.toList)) := by
  unfold compileTemplates at h
  cases hrows : Csv.dictRows (TextFile.translate text) with
  | error e =>
    rw [hrows] at h
    cases h
  | ok rows =>
    rw [hrows] at h
    refine ⟨rows,rfl,(Except.ok.inj h).symm.trans ?_⟩
    rw [List.map_filterMap]
    exact congrArg (List.filterMap · rows) (funext compileRow_eq)

section
variable (declared : List (String × String)) (message : String)

/-- The rows with their patterns, as the stage keeps them. -/
def compiled : List (String × (String → Bool)) :=
  matchers (declared.map (fun p => (p.1,pattern p.2.toList)))

theorem matchEventId_cons (row : String × String) : matchEventId (compiled (row::declared)) message =
    if ((pattern row.2.toList).match message.toList).isSome then some row.1
    else matchEventId (compiled declared) message := by
  unfold matchEventId compiled matchers
  simp only [List.map_cons, List.find?_cons]
  split
  · next h => rw [if_pos h]; rfl
  · next h => rw [if_neg (by simp [h])]

/-- No row fits, or the first row that does gives its id. -/
theorem matchEventId_cases :
    ((∀ row ∈ declared, ¬ Fits row.2 message) ∧ matchEventId (compiled declared) message = none) ∨
    ∃ before row after, declared = before ++ row::after ∧ Fits row.2 message ∧
      (∀ row' ∈ before, ¬ Fits row'.2 message) ∧
      matchEventId (compiled declared) message = some row.1 := by
  induction declared with
  | nil => exact Or.inl ⟨by simp,rfl⟩
  | cons row rows ih =>
    rw [matchEventId_cons]
    by_cases h : Fits row.2 message
    · rw [if_pos ((match_pattern _ _).mpr h)]
      exact Or.inr ⟨[],row,rows,rfl,h,by simp,rfl⟩
    · rw [if_neg (mt (match_pattern _ _).mp h)]
      rcases ih with ⟨hno,hnone⟩ | ⟨before,first,after,rfl,hfits,hno,hsome⟩
      · exact Or.inl ⟨List.forall_mem_cons.mpr ⟨h,hno⟩,hnone⟩
      · exact Or.inr ⟨row::before,first,after,rfl,hfits,List.forall_mem_cons.mpr ⟨h,hno⟩,hsome⟩

end

/-- What `process` makes of a record when these are the rows with an id and a
template: the id of the first that fits, so of no later one than a row of
which the message is a filling. -/
structure FirstMatch (declared : List (String × String)) (key : String) (r r' : LogRecord) :
    Prop where
  cut : ∀ row ∈ declared, Cut row.2.toList (split row.2.toList)
  first : ((∀ row ∈ declared, ¬ Fits row.2 r.message) ∧ r' = r) ∨
    ∃ before row after, declared = before ++ row::after ∧ Fits row.2 r.message ∧
      (∀ row' ∈ before, ¬ Fits row'.2 r.message) ∧ r' = r.addEnrichment key (.str row.1)
  filled : ∀ before row after words, declared = before ++ row::after →
    words.length+1 = (split row.2.toList).length →
    r.message.toList = fill (split row.2.toList) words →
    ∃ row' ∈ before ++ [row], r' = r.addEnrichment key (.str row'.1)

theorem matchTemplate_first (declared : List (String × String)) (key : String) (r : LogRecord) :
    FirstMatch declared key r (matchTemplate (compiled declared) key r) where
  cut row _ := split_cut row.2.toList
  first := by
    unfold matchTemplate
    rcases matchEventId_cases declared r.message with
      ⟨hno,hnone⟩ | ⟨before,row,after,hrows,hfits,hno,hsome⟩
    · exact Or.inl ⟨hno,by rw [hnone]⟩
    · exact Or.inr ⟨before,row,after,hrows,hfits,hno,by rw [hsome]⟩
  filled := by
    intro before row after words hrows hlen hfill
    have hfits := fits_of_filled hlen hfill
    unfold matchTemplate
    rcases matchEventId_cases declared r.message with
      ⟨hno,_⟩ | ⟨before',first,after',hrows',_,hno,hsome⟩
    · exact absurd hfits (hno row (by simp [hrows]))
    · refine ⟨first,?_,by rw [hsome]⟩
      rw [hrows] at hrows'
      rcases List.append_eq_append_iff.mp hrows' with ⟨mid,hb,hm⟩ | ⟨mid,hb,hm⟩
      · cases mid with
        | nil => simp [(List.cons.inj hm).1]
        | cons m mid =>
          obtain ⟨rfl,_⟩ := List.cons.inj hm
          exact absurd hfits (hno row (by simp [hb]))
      · cases mid with
        | nil => simp [(List.cons.inj hm).1]
        | cons m mid =>
          obtain ⟨rfl,_⟩ := List.cons.inj hm
          simp [hb]

/-- Whatever file the stage was made from: `process` gives the record the id of
the first of the file's rows that fits its message. -/
theorem process_first_match {σ : Type} {text : List Char} {patterns : List (String × Regex)}
    (h : compileTemplates text = .ok patterns) (key : String) (w : σ) (r : LogRecord) :
    ∃ rows r', Csv.dictRows (TextFile.translate text) = .ok rows ∧
      (templateMatcherStage (matchers patterns) key).process w r = (.ok r',w) ∧
      FirstMatch (rows.filterMap declaredRow) key r r' := by
  obtain ⟨rows,hrows,rfl⟩ := compileTemplates_ok h
  exact ⟨rows,_,hrows,rfl,matchTemplate_first (rows.filterMap declaredRow) key r⟩

/-- Two templates that both fit. -/
def twoTemplates : List Char :=
  "EventId,EventTemplate\nE1,The <*> message[*]\nE2,The quick message".toList

theorem first_of_two_templates : ∃ patterns rows r',
    compileTemplates twoTemplates = .ok patterns ∧
    Csv.dictRows (TextFile.translate twoTemplates) = .ok rows ∧
    (templateMatcherStage (matchers patterns) "event_id").process ()
      { id := 0, message := "The quick message" } = (.ok r',()) ∧
    FirstMatch (rows.filterMap declaredRow) "event_id" { id := 0, message := "The quick message" }
      r' := by
  have h : compileTemplates twoTemplates = .ok
      [("E1",pattern "The <*> message[*]".toList),("E2",pattern "The quick message".toList)] := rfl
  obtain ⟨rows,r',hrows,hr,hfirst⟩ := process_first_match h "event_id" ()
    { id := 0, message := "The quick message" }
  exact ⟨_,rows,r',h,hrows,hr,hfirst⟩

end PipelineX.TemplateMatcher
