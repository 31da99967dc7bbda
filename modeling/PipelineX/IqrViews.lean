import PipelineX.DetectorRuns

/-!
# The two views of the interquartile window

Over any comparison that is a linear order on the samples the sorted view holds
those of the window in order: bisection finds the sample that leaves.
-/

set_option autoImplicit false

namespace PipelineX.Detectors.Iqr
open PipelineX.Records
variable {F : Type}

/-- The comparisons of the numbers that `p` holds of. -/
structure Ordered (py : PyFloat F) (p : F → Prop) : Prop where
  linear : Bisect.Linear py.lt p
  eq_self : ∀ x, p x → py.eq x x = true

/-- What holds of the two views between calls. -/
structure Synced (py : PyFloat F) (p : F → Prop) (n : ℤ) (s : State F) : Prop where
  elements : ∀ x ∈ s.sorted, p x
  ascending : Bisect.Ascending py.lt s.sorted
  perm : s.sorted.Perm s.window
  length : s.window.length ≤ n

variable {py : PyFloat F} {p : F → Prop} {n : ℤ}

theorem synced_start (h : 0 ≤ n) : Synced py p n ⟨[],[]⟩ where
  elements x hx := by cases hx
  ascending := List.Pairwise.nil
  perm := List.Perm.nil
  length := h

/-- The sample that leaves the window leaves the sorted view. -/
theorem evict_removes (hpy : Ordered py p) {sorted rest : List F} {old : F}
    (hp : ∀ x ∈ sorted, p x) (hasc : Bisect.Ascending py.lt sorted)
    (hperm : sorted.Perm (old::rest)) :
    (evict py sorted old).Perm rest ∧ (evict py sorted old).Sublist sorted := by
  have hmem : old ∈ sorted := hperm.mem_iff.mpr List.mem_cons_self
  have hfound := Bisect.bisectLeft_mem hpy.linear hp hasc hmem
  have hevict : evict py sorted old = sorted.eraseIdx (Bisect.bisectLeft py.lt sorted old) := by
    unfold evict
    dsimp only
    rw [hfound]
    exact if_pos (hpy.eq_self old (hp old hmem))
  obtain ⟨hlt,hget⟩ := List.getElem?_eq_some_iff.mp hfound
  rw [hevict]
  refine ⟨?_,List.eraseIdx_sublist _ _⟩
  have hcons := List.getElem_cons_eraseIdx_perm hlt
  rw [hget] at hcons
  exact (hcons.trans hperm).cons_inv

/-- The sorted view once the oldest sample has left a full window. -/
def remaining (py : PyFloat F) (cfg : Config F) (s : State F) : List F :=
  if (s.window.length : ℤ) = cfg.windowSize then
    match s.window.head? with
    | some old => evict py s.sorted old
    | none => s.sorted
  else s.sorted

theorem add_remaining (py : PyFloat F) (cfg : Config F) (s : State F) (v : F) :
    add py cfg s v = ⟨push cfg.windowSize s.window v,
      Bisect.insort py.lt (remaining py cfg s) v⟩ := by
  unfold add remaining
  cases s.window.head? <;> rfl

/-- The window has room, or its oldest sample leaves it and the sorted view. -/
theorem remaining_cases (py : PyFloat F) {cfg : Config F} {s : State F} (v : F)
    (hn : 0 < cfg.windowSize) (hlength : s.window.length ≤ cfg.windowSize) :
    (remaining py cfg s = s.sorted ∧ push cfg.windowSize s.window v = s.window ++ [v]) ∨
    ∃ old rest, s.window = old::rest ∧ remaining py cfg s = evict py s.sorted old ∧
      push cfg.windowSize s.window v = rest ++ [v] := by
  unfold remaining
  by_cases hfull : (s.window.length : ℤ) = cfg.windowSize
  · cases hw : s.window with
    | nil =>
      rw [hw, List.length_nil] at hfull
      omega
    | cons old rest =>
      rw [hw] at hfull
      exact Or.inr ⟨old,rest,rfl,if_pos hfull,push_full v hfull⟩
  · exact Or.inl ⟨if_neg hfull,push_room v (lt_of_le_of_ne hlength hfull)⟩

theorem remaining_perm (hpy : Ordered py p) {cfg : Config F} {s : State F} (v : F)
    (hn : 0 < cfg.windowSize) (h : Synced py p cfg.windowSize s) :
    (v::remaining py cfg s).Perm (push cfg.windowSize s.window v) ∧
      (remaining py cfg s).Sublist s.sorted := by
  rcases remaining_cases py v hn h.length with ⟨hsame,hpush⟩ | ⟨old,rest,hw,hevict,hpush⟩
  · rw [hsame, hpush]
    exact ⟨(h.perm.cons v).trans (List.perm_append_singleton v s.window).symm,
      List.Sublist.refl _⟩
  · have hperm : s.sorted.Perm (old::rest) := hw ▸ h.perm
    obtain ⟨hrest,hsub⟩ := evict_removes hpy h.elements h.ascending hperm
    rw [hevict, hpush]
    exact ⟨(hrest.cons v).trans (List.perm_append_singleton v rest).symm,hsub⟩

theorem add_synced (hpy : Ordered py p) {cfg : Config F} {s : State F} {v : F}
    (hn : 0 < cfg.windowSize) (h : Synced py p cfg.windowSize s) (hv : p v) :
    Synced py p cfg.windowSize (add py cfg s v) ∧ v ∈ (add py cfg s v).sorted := by
  obtain ⟨hperm,hsub⟩ := remaining_perm hpy v hn h
  have hp : ∀ x ∈ remaining py cfg s, p x := fun x hx => h.elements x (hsub.mem hx)
  have hasc : Bisect.Ascending py.lt (remaining py cfg s) := List.Pairwise.sublist hsub h.ascending
  have hinsert := Bisect.insort_perm py.lt (remaining py cfg s) v
  rw [add_remaining]
  refine ⟨⟨fun x hx => ?_,Bisect.insort_ascending hpy.linear hp hv hasc,
    hinsert.trans hperm,push_length v hn h.length⟩,hinsert.mem_iff.mpr List.mem_cons_self⟩
  rcases List.mem_cons.mp (hinsert.mem_iff.mp hx) with rfl | hx
  · exact hv
  · exact hp x hx

end PipelineX.Detectors.Iqr
