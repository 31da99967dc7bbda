import PipelineX.EventBus
import PipelineX.Tally
import Mathlib.Data.List.Induction

/-!
# What a publish delivers

Each handler is started as often as it was registered for the event's type
when the event was published, and ends by itself: nothing that other handlers
or callers do takes a call back, repeats it or keeps the publish from
returning.
-/

set_option autoImplicit false

namespace PipelineX.EventBus
open PipelineX.Records PipelineX.TransitionSystem PipelineX.Tally

variable {T H E : Type}

section
variable [DecidableEq T] [DecidableEq H]

/-- What a call makes of the number of registrations: a subscription adds one,
and an unsubscription takes one away if there is one. -/
def Change.apply (type : T) (handler : H) (n : ℕ) : Change T H → ℕ
  | .subscribe t h => n + if t = type ∧ h = handler then 1 else 0
  | .unsubscribe t h => n - if t = type ∧ h = handler then 1 else 0

/-- How often the handler is registered for the type after these calls. -/
def registrations (changes : List (Change T H)) (type : T) (handler : H) : ℕ :=
  changes.foldl (Change.apply type handler) 0

theorem registrations_snoc (changes : List (Change T H)) (c : Change T H) (type : T)
    (handler : H) : registrations (changes ++ [c]) type handler =
      c.apply type handler (registrations changes type handler) := by
  rw [registrations, List.foldl_append]
  rfl

end

/-- The calls of `subscribe` and `unsubscribe` in a run. -/
def changesOf (ls : List (Label T H E)) : List (Change T H) :=
  ls.filterMap (fun l => match l with
    | .subscribe t h => some (.subscribe t h)
    | .unsubscribe t h => some (.unsubscribe t h)
    | _ => none)

/-- How many publishes are in a run. -/
def publishes (ls : List (Label T H E)) : ℕ :=
  ls.countP (fun l => match l with
    | .publish _ => true
    | _ => false)

section
variable [DecidableEq T] [DecidableEq H]

theorem count_handlersOf_insert (handlers : OrderedDict T (List H)) (type t : T) (hs : List H)
    (h : H) : (handlersOf (handlers.insert type hs) t).count h =
      if type = t then hs.count h else (handlersOf handlers t).count h := by
  unfold handlersOf
  by_cases ht : type = t
  · rw [if_pos ht, ht, OrderedDict.get?_insert_self, Option.getD_some]
  · rw [if_neg ht, OrderedDict.get?_insert_of_ne _ _ (Ne.symm ht)]

theorem count_subscribe (handlers : OrderedDict T (List H)) (type t : T) (handler h : H) :
    (handlersOf (subscribe handlers type handler) t).count h =
      (handlersOf handlers t).count h + if type = t ∧ handler = h then 1 else 0 := by
  rw [subscribe, count_handlersOf_insert, List.count_append, List.count_singleton]
  by_cases ht : type = t
  · subst ht
    simp
  · simp [ht]

theorem count_unsubscribe (handlers : OrderedDict T (List H)) (type t : T) (handler h : H) :
    (handlersOf (unsubscribe handlers type handler) t).count h =
      (handlersOf handlers t).count h - if type = t ∧ handler = h then 1 else 0 := by
  unfold unsubscribe
  split
  · rw [count_handlersOf_insert]
    by_cases ht : type = t
    · subst ht
      rw [if_pos rfl, List.count_erase]
      by_cases hh : handler = h
      · simp [hh]
      · simp [hh]
    · simp [ht]
  · next hmem =>
    by_cases hsame : type = t ∧ handler = h
    · obtain ⟨rfl,rfl⟩ := hsame
      rw [List.count_eq_zero_of_not_mem hmem, Nat.zero_sub]
    · rw [if_neg hsame, Nat.sub_zero]

/-- The registry has every handler as often as it is registered. -/
def Registered (s : State T H E) : Prop :=
  ∀ t h, (handlersOf s.handlers t).count h = registrations s.changes t h

theorem subscribe_registered {s : State T H E} (hs : Registered s) (type : T) (handler : H) :
    Registered { s with
      handlers := subscribe s.handlers type handler
      changes := s.changes ++ [.subscribe type handler] } := by
  intro t h
  change (handlersOf (subscribe s.handlers type handler) t).count h =
    registrations (s.changes ++ [.subscribe type handler]) t h
  rw [count_subscribe, hs, registrations_snoc]
  rfl

theorem unsubscribe_registered {s : State T H E} (hs : Registered s) (type : T) (handler : H) :
    Registered { s with
      handlers := unsubscribe s.handlers type handler
      changes := s.changes ++ [.unsubscribe type handler] } := by
  intro t h
  change (handlersOf (unsubscribe s.handlers type handler) t).count h =
    registrations (s.changes ++ [.unsubscribe type handler]) t h
  rw [count_unsubscribe, hs, registrations_snoc]
  rfl

/-- The call is one of this handler. -/
def isOf (h : H) (c : Call H) : ℕ := if c.handler = h then 1 else 0

/-- The call is one of this handler and was started. -/
def wasStarted (h : H) (c : Call H) : ℕ :=
  if c.handler = h ∧ c.phase ≠ .pending then 1 else 0

theorem tally_isOf (h : H) (hs : List H) :
    tally (isOf h) (hs.map (fun k => ⟨k,.pending⟩)) = hs.count h := by
  rw [tally_map]
  exact tally_count h hs

theorem tally_pending (h : H) (hs : List H) :
    tally (wasStarted h) (hs.map (fun k => ⟨k,.pending⟩)) = 0 := by
  rw [tally_map, tally_eq_zero]
  intro k _
  simp [wasStarted]

/-- What holds of a publish at any time. -/
structure Delivers (typeOf : E → T) (d : Dispatch T H E) : Prop where
  calls : ∀ h, tally (isOf h) d.calls = registrations d.before (typeOf d.event) h
  started : ∀ h, d.started.count h = tally (wasStarted h) d.calls
  ended : d.returned = true → ∀ c ∈ d.calls, c.phase.ended = true

end

theorem start_eq_some {d d' : Dispatch T H E} {j : ℕ} (h : d.start j = some d') :
    ∃ k, d.calls[j]? = some ⟨k,.pending⟩ ∧
      d' = { d with calls := d.calls.set j ⟨k,.running⟩, started := d.started ++ [k] } := by
  unfold Dispatch.start at h
  split at h
  · next k hk => exact ⟨k,hk,(Option.some.inj h).symm⟩
  · cases h

theorem ends_eq_some {d d' : Dispatch T H E} {j : ℕ} {exception : Option PyError}
    (h : d.ends j exception = some d') :
    ∃ k, d.calls[j]? = some ⟨k,.running⟩ ∧
      d' = { d with calls := d.calls.set j ⟨k,exception.elim .returned .raised⟩ } := by
  unfold Dispatch.ends at h
  split at h
  · next k hk => exact ⟨k,hk,(Option.some.inj h).symm⟩
  · cases h

theorem gathered_eq_some {d d' : Dispatch T H E} (h : d.gathered = some d') :
    (∀ c ∈ d.calls, c.phase.ended = true) ∧ d' = { d with returned := true } := by
  unfold Dispatch.gathered at h
  split at h
  · next hall => exact ⟨hall.2,(Option.some.inj h).symm⟩
  · cases h

theorem stepDispatch_eq_some {s s' : State T H E} {i : ℕ}
    {f : Dispatch T H E → Option (Dispatch T H E)} {log : Dispatch T H E → List Line}
    (h : stepDispatch s i f log = some s') :
    ∃ d d', s.dispatches[i]? = some d ∧ f d = some d' ∧
      s' = { s with dispatches := s.dispatches.set i d', log := s.log ++ log d } := by
  obtain ⟨d,hd,h⟩ := Option.bind_eq_some_iff.mp h
  obtain ⟨d',hd',rfl⟩ := Option.map_eq_some_iff.mp h
  exact ⟨d,d',hd,hd',rfl⟩

/-- The same publish, further on. -/
structure Continues (d d' : Dispatch T H E) : Prop where
  event : d'.event = d.event
  before : d'.before = d.before

section
variable [DecidableEq T] [DecidableEq H]

theorem start_delivers {typeOf : E → T} {d d' : Dispatch T H E} {j : ℕ}
    (hd : Delivers typeOf d) (h : d.start j = some d') : Delivers typeOf d' ∧ Continues d d' := by
  obtain ⟨k,hk,rfl⟩ := start_eq_some h
  refine ⟨⟨fun h => ?_,fun h => ?_,fun hret => ?_⟩,rfl,rfl⟩
  · have hset := tally_set (isOf h) d.calls j ⟨k,.pending⟩ ⟨k,.running⟩ hk
    have hsame : isOf h (⟨k,.pending⟩ : Call H) = isOf h ⟨k,.running⟩ := rfl
    have hcalls := hd.calls h
    change tally (isOf h) (d.calls.set j ⟨k,.running⟩) =
      registrations d.before (typeOf d.event) h
    omega
  · have hset := tally_set (wasStarted h) d.calls j ⟨k,.pending⟩ ⟨k,.running⟩ hk
    have hstarted := hd.started h
    change (d.started ++ [k]).count h = tally (wasStarted h) (d.calls.set j ⟨k,.running⟩)
    rw [List.count_append, List.count_singleton]
    simp only [wasStarted, ne_eq, not_true_eq_false, and_false, if_false, reduceCtorEq,
      not_false_eq_true, and_true, beq_iff_eq] at hset ⊢
    omega
  · have hpending := hd.ended hret _ (List.mem_of_getElem? hk)
    cases hpending

theorem ends_delivers {typeOf : E → T} {d d' : Dispatch T H E} {j : ℕ}
    {exception : Option PyError} (hd : Delivers typeOf d) (h : d.ends j exception = some d') :
    Delivers typeOf d' ∧ Continues d d' := by
  obtain ⟨k,hk,rfl⟩ := ends_eq_some h
  have hphase : exception.elim Phase.returned Phase.raised ≠ .pending := by
    cases exception <;> nofun
  refine ⟨⟨fun h => ?_,fun h => ?_,fun hret => ?_⟩,rfl,rfl⟩
  · have hset := tally_set (isOf h) d.calls j ⟨k,.running⟩
      ⟨k,exception.elim .returned .raised⟩ hk
    have hsame : isOf h (⟨k,.running⟩ : Call H) =
      isOf h ⟨k,exception.elim .returned .raised⟩ := rfl
    have hcalls := hd.calls h
    change tally (isOf h) (d.calls.set j ⟨k,exception.elim .returned .raised⟩) =
      registrations d.before (typeOf d.event) h
    omega
  · have hset := tally_set (wasStarted h) d.calls j ⟨k,.running⟩
      ⟨k,exception.elim .returned .raised⟩ hk
    have hsame : wasStarted h (⟨k,.running⟩ : Call H) =
        wasStarted h ⟨k,exception.elim .returned .raised⟩ := by
      simp [wasStarted, hphase]
    have hstarted := hd.started h
    change d.started.count h = tally (wasStarted h)
      (d.calls.set j ⟨k,exception.elim .returned .raised⟩)
    omega
  · have hrunning := hd.ended hret _ (List.mem_of_getElem? hk)
    cases hrunning

theorem gathered_delivers {typeOf : E → T} {d d' : Dispatch T H E} (hd : Delivers typeOf d)
    (h : d.gathered = some d') : Delivers typeOf d' ∧ Continues d d' := by
  obtain ⟨hall,rfl⟩ := gathered_eq_some h
  exact ⟨⟨hd.calls,hd.started,fun _ => hall⟩,rfl,rfl⟩

theorem publish_delivers {typeOf : E → T} {s : State T H E} (hs : Registered s) (event : E) :
    Delivers typeOf (⟨event,(handlersOf s.handlers (typeOf event)).map (fun h => ⟨h,.pending⟩),
      (handlersOf s.handlers (typeOf event)).isEmpty,s.changes,[]⟩ : Dispatch T H E) where
  calls h := by
    rw [tally_isOf]
    exact hs (typeOf event) h
  started h := (tally_pending h _).symm
  ended hempty c hc := by
    rw [List.isEmpty_iff.mp hempty] at hc
    cases hc

/-- The publish is the one that this label began. -/
def Began (ls : List (Label T H E)) (i : ℕ) (d : Dispatch T H E) : Prop :=
  ∃ ms ns, ls = ms ++ .publish d.event :: ns ∧ publishes ms = i ∧ d.before = changesOf ms

/-- What holds after a run. -/
structure Sound (typeOf : E → T) (ls : List (Label T H E)) (s : State T H E) : Prop where
  changes : s.changes = changesOf ls
  length : s.dispatches.length = publishes ls
  registered : Registered s
  dispatches : ∀ i d, s.dispatches[i]? = some d → Delivers typeOf d ∧ Began ls i d

omit [DecidableEq T] [DecidableEq H] in
theorem Began.snoc {ls : List (Label T H E)} {i : ℕ} {d d' : Dispatch T H E}
    (h : Began ls i d) (hd : Continues d d') (l : Label T H E) : Began (ls ++ [l]) i d' := by
  obtain ⟨ms,ns,rfl,hi,hbefore⟩ := h
  refine ⟨ms,ns ++ [l],?_,hi,hd.before.trans hbefore⟩
  rw [hd.event, List.append_assoc, List.cons_append]

omit [DecidableEq T] [DecidableEq H] in
theorem Continues.refl (d : Dispatch T H E) : Continues d d := ⟨rfl,rfl⟩

/-- A step of one publish leaves the others and the registry as they are. -/
theorem stepDispatch_sound {typeOf : E → T} {ls : List (Label T H E)} {s s' : State T H E}
    (hs : Sound typeOf ls s) {i : ℕ} {f : Dispatch T H E → Option (Dispatch T H E)}
    {log : Dispatch T H E → List Line} {l : Label T H E} (h : stepDispatch s i f log = some s')
    (hf : ∀ d d', Delivers typeOf d → f d = some d' → Delivers typeOf d' ∧ Continues d d')
    (hchanges : changesOf [l] = ([] : List (Change T H))) (hpublish : publishes [l] = 0) :
    Sound typeOf (ls ++ [l]) s' := by
  obtain ⟨d,d',hd,hd',rfl⟩ := stepDispatch_eq_some h
  refine ⟨?_,?_,hs.registered,fun k e hk => ?_⟩
  · change s.changes = _
    rw [changesOf, List.filterMap_append, ← changesOf, ← changesOf, hchanges, List.append_nil]
    exact hs.changes
  · change (s.dispatches.set i d').length = _
    rw [List.length_set, publishes, List.countP_append, ← publishes, ← publishes, hpublish]
    exact hs.length
  · obtain ⟨hdelivers,hbegan⟩ := hs.dispatches i d hd
    change (s.dispatches.set i d')[k]? = some e at hk
    by_cases hik : i = k
    · subst hik
      rw [List.getElem?_set_self (List.getElem?_eq_some_iff.mp hd).1] at hk
      obtain rfl := Option.some.inj hk
      obtain ⟨hnew,hcont⟩ := hf d d' hdelivers hd'
      exact ⟨hnew,hbegan.snoc hcont l⟩
    · rw [List.getElem?_set_ne hik] at hk
      obtain ⟨hold,hbegan⟩ := hs.dispatches k e hk
      exact ⟨hold,hbegan.snoc (Continues.refl e) l⟩

theorem step_sound {typeOf : E → T} {ls : List (Label T H E)} {s s' : State T H E}
    (hs : Sound typeOf ls s) {l : Label T H E} (h : step typeOf s l = some s') :
    Sound typeOf (ls ++ [l]) s' := by
  have hkept : ∀ k d, s.dispatches[k]? = some d → Delivers typeOf d ∧ Began (ls ++ [l]) k d := by
    intro k d hk
    obtain ⟨hd,hbegan⟩ := hs.dispatches k d hk
    exact ⟨hd,hbegan.snoc (Continues.refl d) l⟩
  cases l with
  | subscribe type handler =>
    obtain rfl := Option.some.inj h
    refine ⟨?_,?_,subscribe_registered hs.registered type handler,hkept⟩
    · simp [changesOf, hs.changes]
    · simp [publishes, hs.length]
  | unsubscribe type handler =>
    obtain rfl := Option.some.inj h
    refine ⟨?_,?_,unsubscribe_registered hs.registered type handler,hkept⟩
    · simp [changesOf, hs.changes]
    · simp [publishes, hs.length]
  | publish event =>
    obtain rfl := Option.some.inj h
    refine ⟨?_,?_,hs.registered,fun k d hk => ?_⟩
    · simp [publish, changesOf, hs.changes]
    · simp [publish, publishes, hs.length]
    · by_cases hlt : k < s.dispatches.length
      · rw [publish, List.getElem?_append_left hlt] at hk
        exact hkept k d hk
      · rw [publish, List.getElem?_append_right (Nat.le_of_not_lt hlt)] at hk
        rw [List.getElem?_singleton] at hk
        split at hk
        · next hzero =>
          obtain rfl := Option.some.inj hk
          refine ⟨publish_delivers hs.registered event,ls,[],rfl,?_,hs.changes⟩
          have hlength := hs.length
          omega
        · cases hk
  | start i j =>
    exact stepDispatch_sound hs h (fun _ _ hd hd' => start_delivers hd hd') rfl rfl
  | ends i j exception =>
    exact stepDispatch_sound hs h (fun _ _ hd hd' => ends_delivers hd hd') rfl rfl
  | gathered i =>
    exact stepDispatch_sound hs h (fun _ _ hd hd' => gathered_delivers hd hd') rfl rfl

theorem run_sound (typeOf : E → T) (ls : List (Label T H E)) (s : State T H E)
    (h : run (step typeOf) initial ls = some s) : Sound typeOf ls s := by
  induction ls using List.reverseRecOn generalizing s with
  | nil =>
    obtain rfl := Option.some.inj h
    exact ⟨rfl,rfl,fun _ _ => rfl,nofun⟩
  | append_singleton ls l ih =>
    obtain ⟨t,ht,hl⟩ := run_append_some.mp h
    obtain ⟨u,hu,hend⟩ := run_cons_some.mp hl
    obtain rfl := Option.some.inj hend
    exact step_sound (ih t ht) hu

/-- While a handler runs, a step that is not its own end leaves it running. -/
theorem step_running (typeOf : E → T) {s s' : State T H E} {l : Label T H E} {i j : ℕ} {h : H}
    (hl : ∀ exception, l ≠ .ends i j exception)
    (hrunning : ∃ d, s.dispatches[i]? = some d ∧ d.calls[j]? = some ⟨h,.running⟩)
    (hstep : step typeOf s l = some s') :
    ∃ d, s'.dispatches[i]? = some d ∧ d.calls[j]? = some ⟨h,.running⟩ := by
  obtain ⟨d,hd,hj⟩ := hrunning
  -- a step of publish `k` that leaves the call as it is, if it is of this publish
  have hkeep {k : ℕ} {f : Dispatch T H E → Option (Dispatch T H E)}
      {log : Dispatch T H E → List Line} (hs : stepDispatch s k f log = some s')
      (hf : k = i → ∀ e, f d = some e → e.calls[j]? = some ⟨h,.running⟩) :
      ∃ d, s'.dispatches[i]? = some d ∧ d.calls[j]? = some ⟨h,.running⟩ := by
    obtain ⟨e,e',he,he',rfl⟩ := stepDispatch_eq_some hs
    by_cases hki : k = i
    · subst hki
      obtain rfl := Option.some.inj (he.symm.trans hd)
      exact ⟨e',List.getElem?_set_self (List.getElem?_eq_some_iff.mp hd).1,hf rfl e' he'⟩
    · exact ⟨d,(List.getElem?_set_ne hki).trans hd,hj⟩
  cases l with
  | subscribe type handler =>
    obtain rfl := Option.some.inj hstep
    exact ⟨d,hd,hj⟩
  | unsubscribe type handler =>
    obtain rfl := Option.some.inj hstep
    exact ⟨d,hd,hj⟩
  | publish event =>
    obtain rfl := Option.some.inj hstep
    refine ⟨d,?_,hj⟩
    rw [publish, List.getElem?_append_left (List.getElem?_eq_some_iff.mp hd).1]
    exact hd
  | start k m =>
    refine hkeep hstep fun _ e he => ?_
    obtain ⟨g,hg,rfl⟩ := start_eq_some he
    have hne : m ≠ j := by
      rintro rfl
      rw [hj] at hg
      cases hg
    exact (List.getElem?_set_ne hne).trans hj
  | ends k m exception =>
    refine hkeep hstep fun hki e he => ?_
    obtain ⟨g,hg,rfl⟩ := ends_eq_some he
    have hne : m ≠ j := by
      rintro rfl
      exact hl exception (by rw [hki])
    exact (List.getElem?_set_ne hne).trans hj
  | gathered k =>
    refine hkeep hstep fun _ e he => ?_
    obtain ⟨_,rfl⟩ := gathered_eq_some he
    exact hj

theorem run_running (typeOf : E → T) {s s' : State T H E} {ms : List (Label T H E)} {i j : ℕ}
    {h : H} (hms : ∀ exception, .ends i j exception ∉ ms)
    (hrunning : ∃ d, s.dispatches[i]? = some d ∧ d.calls[j]? = some ⟨h,.running⟩)
    (hrun : run (step typeOf) s ms = some s') :
    ∃ d, s'.dispatches[i]? = some d ∧ d.calls[j]? = some ⟨h,.running⟩ :=
  run_invariant_of (step typeOf) (fun l => ∀ exception, l ≠ .ends i j exception)
    (fun s => ∃ d, s.dispatches[i]? = some d ∧ d.calls[j]? = some ⟨h,.running⟩)
    (fun _ _ _ hl hs hstep => step_running typeOf hl hs hstep)
    (fun _ hl exception he => hms exception (he ▸ hl)) hrunning hrun

/-- What is still to be done for a call. -/
def Call.remaining (c : Call H) : ℕ :=
  match c.phase with
  | .pending => 2
  | .running => 1
  | _ => 0

def Dispatch.remaining (d : Dispatch T H E) : ℕ :=
  tally Call.remaining d.calls + if d.returned then 0 else 1

/-- A step of this publish, with the answers that its handlers give. -/
def Own (i : ℕ) (answers : ℕ → Option PyError) (l : Label T H E) : Prop :=
  (∃ j, l = .start i j) ∨ (∃ j, l = .ends i j (answers j)) ∨ l = .gathered i

/-- A publish that has not returned can go on, whatever its handlers answer. -/
theorem own_step (typeOf : E → T) {s : State T H E} {i : ℕ} {d : Dispatch T H E}
    (answers : ℕ → Option PyError) (hd : s.dispatches[i]? = some d) (hret : d.returned = false) :
    ∃ l s' d', Own i answers l ∧ step typeOf s l = some s' ∧ s'.dispatches[i]? = some d' ∧
      d'.remaining < d.remaining := by
  have hmove (f : Dispatch T H E → Option (Dispatch T H E)) (log : Dispatch T H E → List Line)
      (d' : Dispatch T H E) (hf : f d = some d') : ∃ s', stepDispatch s i f log = some s' ∧
        s'.dispatches[i]? = some d' := by
    refine ⟨_,by rw [stepDispatch, hd, Option.bind_some, hf, Option.map_some],?_⟩
    exact List.getElem?_set_self (List.getElem?_eq_some_iff.mp hd).1
  by_cases hall : ∀ c ∈ d.calls, c.phase.ended = true
  · have hf : d.gathered = some { d with returned := true } := if_pos ⟨hret,hall⟩
    obtain ⟨s',hs',hget⟩ := hmove Dispatch.gathered (fun d => d.calls.flatMap warning) _ hf
    refine ⟨.gathered i,s',_,Or.inr (Or.inr rfl),hs',hget,?_⟩
    simp [Dispatch.remaining, hret]
  · obtain ⟨⟨h,phase⟩,hmem,hphase⟩ : ∃ c ∈ d.calls, ¬c.phase.ended = true := by simpa using hall
    obtain ⟨j,hj⟩ := List.mem_iff_getElem?.mp hmem
    cases phase with
    | pending =>
      have hf : d.start j = some { d with
          calls := d.calls.set j ⟨h,.running⟩
          started := d.started ++ [h] } := by
        rw [Dispatch.start, hj]
      obtain ⟨s',hs',hget⟩ := hmove (fun d => d.start j) (fun _ => []) _ hf
      refine ⟨.start i j,s',_,Or.inl ⟨j,rfl⟩,hs',hget,?_⟩
      have hset := tally_set Call.remaining d.calls j _ ⟨h,.running⟩ hj
      simp only [Call.remaining] at hset
      simp only [Dispatch.remaining]
      omega
    | running =>
      have hf : d.ends j (answers j) = some { d with
          calls := d.calls.set j ⟨h,(answers j).elim .returned .raised⟩ } := by
        rw [Dispatch.ends, hj]
      obtain ⟨s',hs',hget⟩ := hmove (fun d => d.ends j (answers j))
        (fun _ => (answers j).toList.map .eventHandlerFailed) _ hf
      refine ⟨.ends i j (answers j),s',_,Or.inr (Or.inl ⟨j,rfl⟩),hs',hget,?_⟩
      have hset := tally_set Call.remaining d.calls j _
        ⟨h,(answers j).elim .returned .raised⟩ hj
      have hzero : Call.remaining (⟨h,(answers j).elim .returned .raised⟩ : Call H) = 0 := by
        cases answers j <;> rfl
      rw [hzero] at hset
      simp only [Call.remaining] at hset
      simp only [Dispatch.remaining]
      omega
    | returned => exact absurd rfl hphase
    | raised e => exact absurd rfl hphase

/-- However its handlers end, a publish gets to its return. -/
theorem publish_returns (typeOf : E → T) (answers : ℕ → Option PyError) {s : State T H E} {i : ℕ}
    {d : Dispatch T H E} (hd : s.dispatches[i]? = some d) :
    ∃ ms s' d', run (step typeOf) s ms = some s' ∧ (∀ l ∈ ms, Own i answers l) ∧
      s'.dispatches[i]? = some d' ∧ d'.returned = true := by
  induction hn : d.remaining using Nat.strong_induction_on generalizing s d with
  | _ n ih =>
    cases hret : d.returned with
    | true => exact ⟨[],s,d,rfl,nofun,hd,hret⟩
    | false =>
      obtain ⟨l,t,e,hl,ht,he,hlt⟩ := own_step typeOf answers hd hret
      obtain ⟨ms,s',d',hrun,hms,hd',hret'⟩ := ih e.remaining (hn ▸ hlt) he rfl
      exact ⟨l::ms,s',d',run_cons_some.mpr ⟨t,ht,hrun⟩,List.forall_mem_cons.mpr ⟨hl,hms⟩,hd',hret'⟩

theorem started_le (calls : List (Call H)) (h : H) :
    tally (wasStarted h) calls ≤ tally (isOf h) calls := by
  induction calls with
  | nil => exact Nat.le_refl _
  | cons c calls ih =>
    have hc : wasStarted h c ≤ isOf h c := by
      unfold wasStarted isOf
      split
      · next hboth => rw [if_pos hboth.1]
      · exact Nat.zero_le _
    rw [tally_cons, tally_cons]
    exact Nat.add_le_add hc ih

theorem started_eq {calls : List (Call H)} (hended : ∀ c ∈ calls, c.phase.ended = true) (h : H) :
    tally (wasStarted h) calls = tally (isOf h) calls := by
  have hsame : calls.map (wasStarted h) = calls.map (isOf h) := by
    refine List.map_congr_left fun c hc => ?_
    have hphase : c.phase ≠ .pending := by
      intro hp
      have hend := hended c hc
      rw [hp] at hend
      cases hend
    simp [wasStarted, isOf, hphase]
  rw [tally, hsame, tally]

/-- In every run, whoever moves: each publish is that of one call of it, starts
a handler no more often than it was registered then, and has started it just
as often, and seen it end, when it returns. A handler that was started can
end, and only its own end stops it; and the publish can always go on to its
return, whatever exceptions its handlers raise. -/
theorem bus_delivers (typeOf : E → T) (ls : List (Label T H E)) (s : State T H E)
    (hrun : run (step typeOf) initial ls = some s) :
    s.dispatches.length = publishes ls ∧
    (∀ i d, s.dispatches[i]? = some d → ∃ ms ns, ls = ms ++ .publish d.event :: ns ∧
      publishes ms = i ∧
      (∀ h, d.started.count h ≤ registrations (changesOf ms) (typeOf d.event) h) ∧
      (d.returned = true →
        (∀ h, d.started.count h = registrations (changesOf ms) (typeOf d.event) h) ∧
        ∀ c ∈ d.calls, c.phase.ended = true)) ∧
    (∀ i d j h, s.dispatches[i]? = some d → d.calls[j]? = some ⟨h,.running⟩ →
      (∀ exception, ∃ t, step typeOf s (.ends i j exception) = some t) ∧
      ∀ ms t, run (step typeOf) s ms = some t → (∀ exception, .ends i j exception ∉ ms) →
        ∃ d', t.dispatches[i]? = some d' ∧ d'.calls[j]? = some ⟨h,.running⟩) ∧
    ∀ i d, s.dispatches[i]? = some d → ∀ answers, ∃ ms t d',
      run (step typeOf) s ms = some t ∧ (∀ l ∈ ms, Own i answers l) ∧
      t.dispatches[i]? = some d' ∧ d'.returned = true := by
  have hs := run_sound typeOf ls s hrun
  refine ⟨hs.length,fun i d hd => ?_,fun i d j h hd hj => ⟨fun exception => ?_,?_⟩,
    fun i d hd answers => publish_returns typeOf answers hd⟩
  · obtain ⟨hdelivers,ms,ns,hls,hi,hbefore⟩ := hs.dispatches i d hd
    refine ⟨ms,ns,hls,hi,fun h => ?_,fun hret => ⟨fun h => ?_,hdelivers.ended hret⟩⟩
    · rw [← hbefore, ← hdelivers.calls, hdelivers.started]
      exact started_le d.calls h
    · rw [← hbefore, ← hdelivers.calls, hdelivers.started]
      exact started_eq (hdelivers.ended hret) h
  · have hf : d.ends j exception =
        some { d with calls := d.calls.set j ⟨h,exception.elim .returned .raised⟩ } := by
      rw [Dispatch.ends, hj]
    exact ⟨_,by rw [step, stepDispatch, hd, Option.bind_some, hf, Option.map_some]⟩
  · intro ms t ht hms
    exact run_running typeOf hms ⟨d,hd,hj⟩ ht

/-- One handler twice for a type, and one that raises and unsubscribes the
first. -/
def failing : List (Label Unit ℕ ℕ) :=
  [.subscribe () 7,.subscribe () 8,.subscribe () 7,.publish 0,.start 0 1,.unsubscribe () 7,
    .ends 0 1 (some (.other "RuntimeError" "boom")),.start 0 0,.start 0 2,.ends 0 2 none,
    .ends 0 0 none,.gathered 0]

omit [DecidableEq T] [DecidableEq H] in
theorem publishes_publish (e : E) (ls : List (Label T H E)) :
    publishes (.publish e :: ls) = publishes ls + 1 := List.countP_cons_of_pos rfl

omit [DecidableEq T] [DecidableEq H] in
/-- The number of a publish says where in the run it is. -/
theorem publish_split {ms ns ks hs : List (Label T H E)} {e f : E}
    (h : ms ++ .publish e :: ns = ks ++ .publish f :: hs) (hsame : publishes ms = publishes ks) :
    ms = ks := by
  induction ms generalizing ks with
  | nil =>
    cases ks with
    | nil => rfl
    | cons k ks =>
      obtain ⟨rfl,-⟩ := List.cons_eq_cons.mp h
      rw [publishes_publish] at hsame
      cases hsame
  | cons m ms ih =>
    cases ks with
    | nil =>
      obtain ⟨rfl,-⟩ := List.cons_eq_cons.mp h
      rw [publishes_publish] at hsame
      cases hsame
    | cons k ks =>
      obtain ⟨rfl,htail⟩ := List.cons_eq_cons.mp h
      rw [publishes, publishes, List.countP_cons, List.countP_cons] at hsame
      rw [ih htail (Nat.add_right_cancel hsame)]

theorem failing_delivers : ∃ s d, run (step fun _ => ()) initial failing = some s ∧
    s.dispatches[0]? = some d ∧ d.started.count 7 = 2 ∧ d.started.count 8 = 1 := by
  obtain ⟨s,hs⟩ : ∃ s, run (step fun _ => ()) initial failing = some s := ⟨_,rfl⟩
  obtain ⟨d,hd⟩ : ∃ d, s.dispatches[0]? = some d := by
    obtain rfl := Option.some.inj hs
    exact ⟨_,rfl⟩
  have hret : d.returned = true := by
    obtain rfl := Option.some.inj hs
    obtain rfl := Option.some.inj hd
    rfl
  obtain ⟨ms,ns,hls,hi,_,hdone⟩ := (bus_delivers (fun _ => ()) failing s hs).2.1 0 d hd
  obtain rfl : ms = [.subscribe () 7,.subscribe () 8,.subscribe () 7] :=
    publish_split hls.symm hi
  exact ⟨s,d,hs,hd,(hdone hret).1 7,(hdone hret).1 8⟩

end
end PipelineX.EventBus
