import PipelineX.RateLimit

/-!
# The validators of a chain

`SchemaValidator` and `SizeValidator`, and the chain of `build_pipeline` in
which each validator keeps a state of its own. Over a whole log the chain
works like the validators one after the other: each sees what the earlier ones
have let through, and so only such records cost a token of a rate limit.
-/

set_option autoImplicit false

namespace PipelineX.Validators
open PipelineX.Records PipelineX.Stages

/-- The arguments of `SchemaValidator`; a severity is a string. -/
structure SchemaValidator where
  requireMessage : Bool := true
  requireSource : Bool := false
  allowedSeverities : Option (List String) := none

def SchemaValidator.check (v : SchemaValidator) (record : LogRecord) : ValidationResult :=
  if v.requireMessage ∧ record.message = "" then
    { valid := false, reason := "missing message", validatorName := "schema" }
  else if v.requireSource ∧ record.source = "" then
    { valid := false, reason := "missing source", validatorName := "schema" }
  else if v.allowedSeverities.any (fun allowed => record.severity.text ∉ allowed) then
    { valid := false, reason := "severity " ++ record.severity.text ++ " not in allowlist"
      validatorName := "schema" }
  else { valid := true, validatorName := "schema" }

/-- What `__init__` accepts. -/
structure SizeValidator where
  maxMessageBytes : ℤ
  max_pos : 0 < maxMessageBytes

def SizeValidator.init (maxMessageBytes : ℤ := 65536) : Except PyError SizeValidator :=
  if h : maxMessageBytes ≤ 0 then .error (.other "ValueError" "max_message_bytes must be > 0")
  else .ok ⟨maxMessageBytes,Int.not_le.mp h⟩

/-- The default passes the check. -/
theorem size_init_default : ∃ v, SizeValidator.init = .ok v ∧ v.maxMessageBytes = 65536 :=
  ⟨⟨65536,by decide⟩,rfl,rfl⟩

def SizeValidator.check (v : SizeValidator) (record : LogRecord) : ValidationResult :=
  let size : ℤ := record.message.utf8ByteSize
  if v.maxMessageBytes < size then
    { valid := false
      reason := "message size " ++ toString size ++ " > " ++ toString v.maxMessageBytes
      validatorName := "size" }
  else { valid := true, validatorName := "size" }

section
variable {τ : Type}

/-- A validator that keeps no state. -/
def stateless (name : String) (check : LogRecord → ValidationResult) : Validator τ where
  name := name
  validate t r := (check r,t)

/-- The records that a validator lets through when it sees these in turn. -/
def accepted (v : Validator τ) : τ → List LogRecord → List LogRecord
  | _, [] => []
  | t, r::rs =>
    if (v.validate t r).1.valid then r :: accepted v (v.validate t r).2 rs
    else accepted v (v.validate t r).2 rs

def after (v : Validator τ) : τ → List LogRecord → τ
  | t, [] => t
  | t, r::rs => after v (v.validate t r).2 rs

/-- The records that reach the end of a list of validators, one after the other. -/
def inTurn : List (Validator τ × τ) → List LogRecord → List LogRecord
  | [], rs => rs
  | (v,t)::vs, rs => inTurn vs (accepted v t rs)

/-- The validator has the first of the states to itself. -/
def first (v : Validator τ) : Validator (List τ) where
  name := v.name
  validate
    | [], _ => ({ valid := true },[])
    | t::ts, r => ((v.validate t r).1,(v.validate t r).2::ts)

/-- The validator works on the states after the first. -/
def later (v : Validator (List τ)) : Validator (List τ) where
  name := v.name
  validate
    | [], r => v.validate [] r
    | t::ts, r => ((v.validate ts r).1,t::(v.validate ts r).2)

/-- Each validator of a chain with its own state. -/
def placed : List (Validator τ) → List (Validator (List τ))
  | [] => []
  | v::vs => first v :: (placed vs).map later

end

section
variable {σ : Type}

variable (process : σ → LogRecord → Except PyError LogRecord × σ)

/-- What the `process` of a stage gives for each of these records. -/
def outcomes : σ → List LogRecord → List (Except PyError LogRecord)
  | _, [] => []
  | w, r::rs => (process w r).1 :: outcomes (process w r).2 rs

def afterAll : σ → List LogRecord → σ
  | w, [] => w
  | w, r::rs => afterAll (process w r).2 rs

/-- The records that did not raise. -/
def passed (outs : List (Except PyError LogRecord)) : List LogRecord :=
  outs.filterMap (fun out => out.toOption)

end

section
variable {τ : Type}

/-- Validators that leave the first state alone. -/
theorem validateChain_later (us : List (Validator (List τ))) (t : τ) (ts : List τ)
    (r : LogRecord) : validateChain (us.map later) (t::ts) r =
      ((validateChain us ts r).1,t::(validateChain us ts r).2) := by
  induction us generalizing ts with
  | nil => rfl
  | cons u us ih =>
    simp only [List.map_cons, validateChain, later]
    cases (u.validate ts r).1.valid with
    | true => exact ih _
    | false => rfl

theorem validateChain_first (v : Validator τ) (us : List (Validator (List τ))) (t : τ)
    (ts : List τ) (r : LogRecord) : validateChain (first v :: us.map later) (t::ts) r =
      if (v.validate t r).1.valid then
        ((validateChain us ts r).1,(v.validate t r).2::(validateChain us ts r).2)
      else (.error (.validationError ("validator " ++ (v.validate t r).1.validatorName ++
        " rejected record: " ++ (v.validate t r).1.reason)),(v.validate t r).2::ts) := by
  rw [validateChain]
  simp only [first]
  rw [validateChain_later]
  rfl

/-- A validator before others: it sees all records, and they see what it lets
through. -/
theorem run_first (v : Validator τ) (us : List (Validator (List τ))) (t : τ) (ts : List τ)
    (rs : List LogRecord) :
    passed (outcomes (validateChain (first v :: us.map later)) (t::ts) rs) =
        passed (outcomes (validateChain us) ts (accepted v t rs)) ∧
      afterAll (validateChain (first v :: us.map later)) (t::ts) rs =
        after v t rs :: afterAll (validateChain us) ts (accepted v t rs) := by
  induction rs generalizing t ts with
  | nil => exact ⟨rfl,rfl⟩
  | cons r rs ih =>
    simp only [outcomes, afterAll, accepted, after]
    rw [validateChain_first]
    cases hv : (v.validate t r).1.valid with
    | true =>
      obtain ⟨hpassed,hafter⟩ := ih (v.validate t r).2 (validateChain us ts r).2
      simp only [if_true, outcomes, afterAll]
      refine ⟨?_,hafter⟩
      rw [passed, List.filterMap_cons, passed, List.filterMap_cons, ← passed, ← passed, hpassed]
    | false =>
      obtain ⟨hpassed,hafter⟩ := ih (v.validate t r).2 ts
      exact ⟨hpassed,hafter⟩

/-- What each validator keeps after its turn. -/
def finals : List (Validator τ × τ) → List LogRecord → List τ
  | [], _ => []
  | (v,t)::vs, rs => after v t rs :: finals vs (accepted v t rs)

theorem passed_ok (rs : List LogRecord) :
    passed (outcomes (validateChain ([] : List (Validator (List τ)))) [] rs) = rs := by
  induction rs with
  | nil => rfl
  | cons r rs ih => exact congrArg (r :: ·) ih

/-- Record by record through the chain, or validator by validator over the log. -/
theorem run_placed (vs : List (Validator τ × τ)) (rs : List LogRecord) :
    passed (outcomes (validateChain (placed (vs.map Prod.fst))) (vs.map Prod.snd) rs) = inTurn vs rs ∧
      afterAll (validateChain (placed (vs.map Prod.fst))) (vs.map Prod.snd) rs = finals vs rs := by
  induction vs generalizing rs with
  | nil =>
    refine ⟨passed_ok rs,?_⟩
    induction rs with
    | nil => rfl
    | cons r rs ih => exact ih
  | cons p vs ih =>
    obtain ⟨v,t⟩ := p
    obtain ⟨hpassed,hafter⟩ := run_first v (placed (vs.map Prod.fst)) t (vs.map Prod.snd) rs
    obtain ⟨hrest,hstates⟩ := ih (accepted v t rs)
    simp only [List.map_cons, placed]
    exact ⟨hpassed.trans hrest,hafter.trans (congrArg _ hstates)⟩

theorem finals_get (vs : List (Validator τ × τ)) (rs : List LogRecord) {i : ℕ}
    {p : Validator τ × τ} (hi : vs[i]? = some p) :
    (finals vs rs)[i]? = some (after p.1 p.2 (inTurn (vs.take i) rs)) := by
  induction vs generalizing rs i with
  | nil => simp at hi
  | cons q vs ih =>
    cases i with
    | zero =>
      cases Option.some.inj hi
      rfl
    | succ i => exact ih (accepted q.1 q.2 rs) hi

theorem accepted_stateless (name : String) (check : LogRecord → ValidationResult) (t : τ)
    (rs : List LogRecord) :
    accepted (stateless name check) t rs = rs.filter (fun r => (check r).valid) := by
  induction rs with
  | nil => rfl
  | cons r rs ih =>
    by_cases hc : (check r).valid = true
    · rw [List.filter_cons, if_pos hc, ← ih, accepted]
      exact if_pos hc
    · rw [List.filter_cons, if_neg hc, ← ih, accepted]
      exact if_neg hc

end

section
variable {K : Type} [Field K] [LinearOrder K]

/-- One of `config.validation` with the clock that a rate limit has. -/
inductive Link (K : Type) [Field K] [LinearOrder K] where
  | schema (v : SchemaValidator)
  | size (v : SizeValidator)
  | rateLimit (c : RateLimit.Config K) (clock : ℕ → K)

def Link.name : Link K → String
  | .schema _ => "schema"
  | .size _ => "size"
  | .rateLimit _ _ => "rate_limit"

def Link.validator : Link K → Validator (RateLimit.State K)
  | .schema v => stateless "schema" v.check
  | .size v => stateless "size" v.check
  | .rateLimit c clock => RateLimit.rateLimitValidator c clock

def fresh (links : List (Link K)) : List (Validator (RateLimit.State K) × RateLimit.State K) :=
  links.map (fun link => (link.validator,RateLimit.start))

/-- `_build_validation_stage`. -/
def buildValidationStage (links : List (Link K)) : Option (Stage (List (RateLimit.State K))) :=
  if links = [] then none else some (validationStage (placed (links.map Link.validator)))

/-- What a link that keeps no state says of a record. -/
def Link.check : Link K → Option (LogRecord → ValidationResult)
  | .schema v => some v.check
  | .size v => some v.check
  | .rateLimit _ _ => none

theorem check_validator {link : Link K} {check : LogRecord → ValidationResult}
    (h : link.check = some check) : link.validator = stateless link.name check := by
  cases link <;> cases h <;> rfl

theorem validator_name (link : Link K) (t : RateLimit.State K) (r : LogRecord) :
    (link.validator.validate t r).1.validatorName = link.name := by
  cases link with
  | schema v =>
    simp only [Link.validator, stateless, SchemaValidator.check]
    split
    · rfl
    · split
      · rfl
      · split <;> rfl
  | size v =>
    simp only [Link.validator, stateless, SizeValidator.check]
    split <;> rfl
  | rateLimit c clock =>
    simp only [Link.validator, RateLimit.rateLimitValidator, RateLimit.validate]
    split <;> rfl

/-- Links that keep no state filter the log. -/
theorem inTurn_checks (links : List (Link K)) (rs : List LogRecord)
    (h : ∀ link ∈ links, link.check.isSome) : inTurn (fresh links) rs =
      rs.filter (fun r => links.all (fun link => link.check.all (fun check => (check r).valid))) := by
  induction links generalizing rs with
  | nil => simp [fresh, inTurn]
  | cons link links ih =>
    obtain ⟨check,hc⟩ := Option.isSome_iff_exists.mp (h link List.mem_cons_self)
    rw [fresh, List.map_cons, inTurn, ← fresh, check_validator hc, accepted_stateless,
      ih _ (fun l hl => h l (List.mem_cons_of_mem _ hl)), List.filter_filter]
    refine List.filter_congr (fun r _ => ?_)
    simp [hc, Bool.and_comm]

theorem after_rateLimit (c : RateLimit.Config K) (clock : ℕ → K) (w : RateLimit.State K)
    (rs : List LogRecord) : after (RateLimit.rateLimitValidator c clock) w rs =
      RateLimit.after c clock w rs := by
  induction rs generalizing w with
  | nil => rfl
  | cons r rs ih => exact ih _

/-- A rejection comes from one of the validators. -/
theorem placed_rejects {τ : Type} {vs : List (Validator τ)} {v : Validator (List τ)}
    (hv : v ∈ placed vs) {w : List τ} {r : LogRecord} (h : (v.validate w r).1.valid = false) :
    ∃ u ∈ vs, ∃ t, (v.validate w r).1 = (u.validate t r).1 := by
  induction vs generalizing v w with
  | nil => cases hv
  | cons u us ih =>
    rcases List.mem_cons.mp hv with rfl | hm
    · cases w with
      | nil => cases h
      | cons t ts => exact ⟨u,List.mem_cons_self,t,rfl⟩
    · obtain ⟨v',hv',rfl⟩ := List.mem_map.mp hm
      have hlater : ∃ w', ((later v').validate w r).1 = (v'.validate w' r).1 := by
        cases w with
        | nil => exact ⟨[],rfl⟩
        | cons t ts => exact ⟨ts,rfl⟩
      obtain ⟨w',hw'⟩ := hlater
      obtain ⟨q,hq,t,hqt⟩ := ih hv' (hw' ▸ h)
      exact ⟨q,List.mem_cons_of_mem _ hq,t,hw'.trans hqt⟩

theorem chain_error {σ : Type} (vs : List (Validator σ)) (w : σ) (r : LogRecord) {e : PyError}
    (h : (validateChain vs w r).1 = .error e) : ∃ v ∈ vs, ∃ w',
      (v.validate w' r).1.valid = false ∧ e = .validationError ("validator " ++
        (v.validate w' r).1.validatorName ++ " rejected record: " ++
        (v.validate w' r).1.reason) := by
  induction vs generalizing w with
  | nil => cases h
  | cons v vs ih =>
    rw [validateChain] at h
    by_cases hv : (v.validate w r).1.valid = true
    · obtain ⟨u,hu,hrest⟩ := ih (v.validate w r).2 (by simpa [hv] using h)
      exact ⟨u,List.mem_cons_of_mem _ hu,hrest⟩
    · refine ⟨v,List.mem_cons_self,w,by simpa using hv,?_⟩
      simpa [hv] using h.symm

theorem mem_outcomes {σ : Type} {process : σ → LogRecord → Except PyError LogRecord × σ} {w : σ}
    {rs : List LogRecord} {out : Except PyError LogRecord} (h : out ∈ outcomes process w rs) :
    ∃ w', ∃ r ∈ rs, (process w' r).1 = out := by
  induction rs generalizing w with
  | nil => cases h
  | cons r rs ih =>
    rcases List.mem_cons.mp h with rfl | h
    · exact ⟨w,r,List.mem_cons_self,rfl⟩
    · obtain ⟨w',q,hq,hout⟩ := ih h
      exact ⟨w',q,List.mem_cons_of_mem _ hq,hout⟩

/-- The validation stage of any configuration works over a log like its
validators one after the other, each over what the earlier ones let through.
What a rate limit keeps is what it keeps when it sees only those records; behind
validators without a state these are the records that all of them find valid.
Every rejection names one of the validators. -/
theorem validators_in_turn (links : List (Link K)) (st : Stage (List (RateLimit.State K)))
    (hst : buildValidationStage links = some st) (rs : List LogRecord) :
    passed (outcomes st.process (links.map (fun _ => RateLimit.start)) rs) =
        inTurn (fresh links) rs ∧
    (∀ i c clock, links[i]? = some (.rateLimit c clock) →
      (afterAll st.process (links.map (fun _ => RateLimit.start)) rs)[i]? =
        some (RateLimit.after c clock RateLimit.start (inTurn (fresh (links.take i)) rs))) ∧
    (∀ i, (∀ link ∈ links.take i, link.check.isSome) →
      inTurn (fresh (links.take i)) rs = rs.filter (fun r =>
        (links.take i).all (fun link => link.check.all (fun check => (check r).valid)))) ∧
    ∀ e, .error e ∈ outcomes st.process (links.map (fun _ => RateLimit.start)) rs →
      ∃ link ∈ links, ∃ reason, e = .validationError
        ("validator " ++ link.name ++ " rejected record: " ++ reason) := by
  unfold buildValidationStage at hst
  split at hst
  · cases hst
  · cases hst
    have hfst : (fresh links).map Prod.fst = links.map Link.validator := by
      rw [fresh, List.map_map]
      rfl
    have hsnd : (fresh links).map Prod.snd = links.map (fun _ => RateLimit.start) := by
      rw [fresh, List.map_map]
      rfl
    have hrun := run_placed (fresh links) rs
    rw [hfst, hsnd] at hrun
    refine ⟨hrun.1,fun i c clock hi => ?_,fun i h => inTurn_checks _ rs h,fun e he => ?_⟩
    · have hget : (fresh links)[i]? =
          some (RateLimit.rateLimitValidator c clock,RateLimit.start) := by
        rw [fresh, List.getElem?_map, hi]
        rfl
      have hfinal := finals_get (fresh links) rs hget
      rw [after_rateLimit, fresh, ← List.map_take] at hfinal
      exact (congrArg (·[i]?) hrun.2).trans hfinal
    · obtain ⟨w,r,_,hr⟩ := mem_outcomes he
      obtain ⟨v,hv,w',hinvalid,rfl⟩ := chain_error _ w r hr
      obtain ⟨u,hu,t,hut⟩ := placed_rejects hv hinvalid
      obtain ⟨link,hl,rfl⟩ := List.mem_map.mp hu
      exact ⟨link,hl,_,by rw [hut, validator_name]⟩

end

theorem eight_pos : (0 : ℤ) < 8 := by decide

/-- A message is required and has at most eight bytes; then one record passes. -/
def sampleLinks : List (Link ℚ) :=
  [.schema {},.size ⟨8,eight_pos⟩,.rateLimit RateLimit.slow (fun _ => 0)]

def sampleRecord (id : UUID) (message : String) : LogRecord where
  id := id
  source := "dfs"
  message := message

def sampleLog : List LogRecord :=
  [sampleRecord 0 "",sampleRecord 1 "a long message",sampleRecord 2 "first",
    sampleRecord 3 "second"]

/-- The records that the first two validators reject cost no token. -/
theorem validators_in_turn_sample : ∃ st, buildValidationStage sampleLinks = some st ∧
    passed (outcomes st.process (sampleLinks.map (fun _ => RateLimit.start)) sampleLog) =
      [sampleRecord 2 "first"] ∧
    (afterAll st.process (sampleLinks.map (fun _ => RateLimit.start)) sampleLog)[2]? =
      some (RateLimit.after RateLimit.slow (fun _ => 0) RateLimit.start
        [sampleRecord 2 "first",sampleRecord 3 "second"]) := by
  have hst : buildValidationStage sampleLinks =
      some (validationStage (placed (sampleLinks.map Link.validator))) :=
    if_neg (by simp [sampleLinks])
  have h := validators_in_turn sampleLinks _ hst sampleLog
  have hfront : inTurn (fresh (sampleLinks.take 2)) sampleLog =
      [sampleRecord 2 "first",sampleRecord 3 "second"] := by decide +kernel
  refine ⟨_,hst,h.1.trans (by decide +kernel),?_⟩
  rw [h.2.1 2 _ _ rfl, hfront]

end PipelineX.Validators
