import Mathlib.Data.List.Nodup
import Mathlib.Data.List.Basic

/-!
# Insertion-ordered dictionaries

A finite map that remembers the order of its keys, with the operations of
Python's `dict` and `OrderedDict`. The keys are distinct by construction, so
no operation has to re-establish it for its callers.
-/

set_option autoImplicit false

namespace PipelineX

structure OrderedDict (K V : Type*) where
  items : List (K × V)
  nodup : (items.map Prod.fst).Nodup
  deriving DecidableEq

namespace OrderedDict

variable {K V : Type*} [DecidableEq K]

def empty : OrderedDict K V := ⟨[], List.nodup_nil⟩

def keys (d : OrderedDict K V) : List K := d.items.map Prod.fst

def size (d : OrderedDict K V) : ℕ := d.items.length

def get? (d : OrderedDict K V) (k : K) : Option V :=
  (d.items.find? (fun p => p.1 = k)).map Prod.snd

omit [DecidableEq K] in
theorem fst_mem_keys {d : OrderedDict K V} {p : K × V} (h : p ∈ d.items) : p.1 ∈ d.keys :=
  List.mem_map_of_mem h

def erase (d : OrderedDict K V) (k : K) : OrderedDict K V where
  items := d.items.filter (fun p => p.1 ≠ k)
  nodup := d.nodup.sublist (List.filter_sublist.map Prod.fst)

theorem not_mem_erase_keys (d : OrderedDict K V) (k : K) : k ∉ (d.erase k).keys := by
  simp [keys, erase]

/-- The entry goes to the end of the order, whether or not the key was there. -/
def pushEnd (d : OrderedDict K V) (k : K) (v : V) : OrderedDict K V where
  items := (d.erase k).items ++ [(k,v)]
  nodup := by
    rw [List.map_append]
    refine List.Nodup.append (d.erase k).nodup (List.nodup_singleton k) ?_
    intro a ha hk
    have hak : a = k := by simpa using hk
    exact not_mem_erase_keys d k (hak ▸ ha)

theorem items_pushEnd (d : OrderedDict K V) (k : K) (v : V) :
    (d.pushEnd k v).items = (d.erase k).items ++ [(k,v)] := rfl

/-- Assignment: in place when the key is present, at the end when it is not. -/
def insert (d : OrderedDict K V) (k : K) (v : V) : OrderedDict K V :=
  if k ∈ d.keys then
    { items := d.items.map (fun p => (p.1, if p.1 = k then v else p.2))
      nodup := by simpa [Function.comp_def] using d.nodup }
  else d.pushEnd k v

/-- An entry that is there already stays. -/
def setDefault (d : OrderedDict K V) (k : K) (v : V) : OrderedDict K V :=
  if k ∈ d.keys then d else d.pushEnd k v

/-- An absent key is an error in Python; here it leaves the order alone. -/
def moveToEnd (d : OrderedDict K V) (k : K) : OrderedDict K V :=
  match d.get? k with
  | none => d
  | some v => d.pushEnd k v

omit [DecidableEq K] in
theorem ext_items {d e : OrderedDict K V} (h : d.items = e.items) : d = e := by
  cases d
  cases e
  cases h
  rfl

theorem get?_eq_none {d : OrderedDict K V} {k : K} : d.get? k = none ↔ k ∉ d.keys := by
  simp only [get?, keys, Option.map_eq_none_iff, List.find?_eq_none, List.mem_map]
  constructor
  · rintro h ⟨p,hp,rfl⟩
    exact h p hp (by simp)
  · intro h p hp hk
    exact h ⟨p,hp,by simpa using hk⟩

theorem mem_of_get? {d : OrderedDict K V} {k : K} {v : V} (h : d.get? k = some v) :
    (k,v) ∈ d.items := by
  obtain ⟨p,hp,rfl⟩ := Option.map_eq_some_iff.mp h
  have hk : p.1 = k := by simpa using List.find?_some hp
  exact hk ▸ List.mem_of_find?_eq_some hp

omit [DecidableEq K] in
theorem value_unique {d : OrderedDict K V} {k : K} {v w : V}
    (hv : (k,v) ∈ d.items) (hw : (k,w) ∈ d.items) : v = w :=
  congrArg Prod.snd (List.inj_on_of_nodup_map d.nodup hv hw rfl)

theorem get?_eq_some {d : OrderedDict K V} {k : K} {v : V} :
    d.get? k = some v ↔ (k,v) ∈ d.items := by
  refine ⟨mem_of_get?, fun h => ?_⟩
  cases hg : d.get? k with
  | none => exact absurd (List.mem_map_of_mem h) (get?_eq_none.mp hg)
  | some w => rw [value_unique h (mem_of_get? hg)]

@[simp] theorem get?_empty (k : K) : (empty : OrderedDict K V).get? k = none := rfl

theorem mem_erase {d : OrderedDict K V} {k : K} {p : K × V} :
    p ∈ (d.erase k).items ↔ p ∈ d.items ∧ p.1 ≠ k := by
  simp [erase]

@[simp] theorem get?_erase_self (d : OrderedDict K V) (k : K) : (d.erase k).get? k = none :=
  get?_eq_none.mpr (not_mem_erase_keys d k)

theorem get?_erase_of_ne (d : OrderedDict K V) {k l : K} (h : l ≠ k) :
    (d.erase k).get? l = d.get? l := by
  apply Option.ext
  intro v
  rw [get?_eq_some, get?_eq_some, mem_erase]
  exact ⟨And.left,fun hv => ⟨hv,h⟩⟩

theorem mem_pushEnd {d : OrderedDict K V} {k : K} {v : V} {p : K × V} :
    p ∈ (d.pushEnd k v).items ↔ (p ∈ d.items ∧ p.1 ≠ k) ∨ p = (k,v) := by
  simp [pushEnd, mem_erase]

@[simp] theorem get?_pushEnd_self (d : OrderedDict K V) (k : K) (v : V) :
    (d.pushEnd k v).get? k = some v :=
  get?_eq_some.mpr (mem_pushEnd.mpr (Or.inr rfl))

theorem get?_pushEnd_of_ne (d : OrderedDict K V) {k l : K} (v : V) (h : l ≠ k) :
    (d.pushEnd k v).get? l = d.get? l := by
  apply Option.ext
  intro w
  rw [get?_eq_some, get?_eq_some, mem_pushEnd]
  simp [h]

/-- Up to order, a dictionary is what is left without a key and the entry
under that key. -/
theorem items_perm (d : OrderedDict K V) (k : K) :
    ((d.get? k).elim [] (fun v => [(k,v)]) ++ (d.erase k).items).Perm d.items := by
  have hn : ∀ d : OrderedDict K V, d.items.Nodup := fun d => List.Nodup.of_map _ d.nodup
  refine (List.perm_ext_iff_of_nodup ?_ (hn d)).mpr fun p => ?_
  · cases d.get? k with
    | none => exact hn _
    | some v =>
      refine List.nodup_cons.mpr ⟨fun h => ?_,hn _⟩
      exact (mem_erase.mp h).2 rfl
  · rw [List.mem_append, mem_erase]
    cases hg : d.get? k with
    | none =>
      have hk := get?_eq_none.mp hg
      constructor
      · rintro (h | h)
        · exact absurd h List.not_mem_nil
        · exact h.1
      · exact fun h => Or.inr ⟨h,fun he => hk (he ▸ List.mem_map_of_mem h)⟩
    | some v =>
      have hv := mem_of_get? hg
      constructor
      · rintro (h | h)
        · exact List.mem_singleton.mp h ▸ hv
        · exact h.1
      · intro h
        by_cases hp : p.1 = k
        · refine Or.inl (List.mem_singleton.mpr ?_)
          exact Prod.ext hp (value_unique (k := k) (hp ▸ h) hv)
        · exact Or.inr ⟨h,hp⟩

theorem erase_pushEnd (d : OrderedDict K V) (k : K) (v : V) :
    (d.pushEnd k v).erase k = d.erase k := by
  apply ext_items
  simp [pushEnd, erase]

theorem keys_pushEnd (d : OrderedDict K V) (k : K) (v : V) :
    (d.pushEnd k v).keys = (d.erase k).keys ++ [k] := by
  simp [keys, pushEnd]

theorem size_erase_le (d : OrderedDict K V) (k : K) : (d.erase k).size ≤ d.size :=
  List.length_filter_le _ _

theorem size_erase_lt {d : OrderedDict K V} {k : K} (h : k ∈ d.keys) :
    (d.erase k).size < d.size := by
  obtain ⟨p,hp,rfl⟩ := List.mem_map.mp h
  exact List.length_filter_lt_length_iff_exists.mpr ⟨p,hp,by simp⟩

theorem size_pushEnd_le (d : OrderedDict K V) (k : K) (v : V) :
    (d.pushEnd k v).size ≤ d.size+1 := by
  have h := size_erase_le d k
  simp only [size, pushEnd, List.length_append, List.length_singleton] at *
  omega

/-- Assigning to the last entry of the order keeps it last. -/
theorem insert_pushEnd (d : OrderedDict K V) (k : K) (v w : V) :
    (d.pushEnd k v).insert k w = d.pushEnd k w := by
  have hk : k ∈ (d.pushEnd k v).keys := by simp [keys_pushEnd]
  have hother : (d.erase k).items.map (fun p => (p.1, if p.1 = k then w else p.2)) =
      (d.erase k).items := by
    refine (List.map_congr_left fun p hp => ?_).trans (List.map_id _)
    simp [(mem_erase.mp hp).2]
  rw [insert, if_pos hk]
  apply ext_items
  simp only [pushEnd, List.map_append, List.map_cons, List.map_nil, if_true]
  rw [hother]

theorem get?_insert_of_ne (d : OrderedDict K V) {k l : K} (v : V) (h : l ≠ k) :
    (d.insert k v).get? l = d.get? l := by
  unfold insert
  split
  · apply Option.ext
    intro w
    rw [get?_eq_some, get?_eq_some]
    simp only [List.mem_map, Prod.mk.injEq, Prod.exists]
    constructor
    · rintro ⟨a,u,hm,rfl,hu⟩
      rw [if_neg h] at hu
      exact hu ▸ hm
    · exact fun hm => ⟨l,w,hm,rfl,if_neg h⟩
  · exact get?_pushEnd_of_ne d v h

theorem get?_insert_self (d : OrderedDict K V) (k : K) (v : V) :
    (d.insert k v).get? k = some v := by
  unfold insert
  split
  · next h =>
    obtain ⟨p,hp,rfl⟩ := List.mem_map.mp h
    refine get?_eq_some.mpr (List.mem_map.mpr ⟨p,hp,?_⟩)
    rw [if_pos rfl]
  · exact get?_pushEnd_self d k v

theorem get?_setDefault_self (d : OrderedDict K V) (k : K) (v : V) :
    (d.setDefault k v).get? k = some ((d.get? k).getD v) := by
  unfold setDefault
  split
  · next h =>
    cases hg : d.get? k with
    | none => exact absurd h (get?_eq_none.mp hg)
    | some w => rfl
  · next h => rw [get?_pushEnd_self, get?_eq_none.mpr h, Option.getD_none]

theorem get?_setDefault_of_ne (d : OrderedDict K V) {k l : K} (v : V) (h : l ≠ k) :
    (d.setDefault k v).get? l = d.get? l := by
  unfold setDefault
  split
  · rfl
  · exact get?_pushEnd_of_ne d v h

theorem insert_of_get?_none {d : OrderedDict K V} {k : K} (v : V) (h : d.get? k = none) :
    d.insert k v = d.pushEnd k v :=
  if_neg (get?_eq_none.mp h)

theorem moveToEnd_of_get?_some {d : OrderedDict K V} {k : K} {v : V} (h : d.get? k = some v) :
    d.moveToEnd k = d.pushEnd k v := by
  rw [moveToEnd, h]

/-- Assignments under distinct keys, of values that are all there. -/
theorem foldlM_insert {E W : Type*} {f : V → Except E W} (hf : ∀ v, ∃ w, f v = .ok w)
    (items : List (K × V)) (hnodup : (items.map Prod.fst).Nodup) (d : OrderedDict K W) :
    ∃ e, items.foldlM (fun d p => (f p.2).map (d.insert p.1)) d = .ok e ∧
      (∀ p ∈ items, ∃ w, f p.2 = .ok w ∧ e.get? p.1 = some w) ∧
      ∀ k ∉ items.map Prod.fst, e.get? k = d.get? k := by
  induction items generalizing d with
  | nil => exact ⟨d,rfl,nofun,fun _ _ => rfl⟩
  | cons p items ih =>
    obtain ⟨hp,hnodup⟩ := List.nodup_cons.mp hnodup
    obtain ⟨w,hw⟩ := hf p.2
    obtain ⟨e,he,hitems,hother⟩ := ih hnodup (d.insert p.1 w)
    refine ⟨e,?_,?_,fun k hk => ?_⟩
    · rw [List.foldlM_cons, hw]
      exact he
    · refine List.forall_mem_cons.mpr ⟨⟨w,hw,?_⟩,hitems⟩
      rw [hother p.1 hp, get?_insert_self]
    · obtain ⟨hne,hk⟩ := not_or.mp (mt List.mem_cons.mpr hk)
      rw [hother k hk, get?_insert_of_ne d w hne]

/-- The same keys with other values. -/
def mapValues {W : Type*} (f : V → W) (d : OrderedDict K V) : OrderedDict K W where
  items := d.items.map (fun p => (p.1,f p.2))
  nodup := by simpa [Function.comp_def] using d.nodup

theorem get?_mapValues {W : Type*} (f : V → W) (d : OrderedDict K V) (k : K) :
    (d.mapValues f).get? k = (d.get? k).map f := by
  unfold get? mapValues
  rw [List.find?_map, Option.map_map, Option.map_map]
  rfl

end OrderedDict
end PipelineX
