import Mathlib.Data.List.Perm.Basic

/-!
# Tables and conditions

What a relational database promises about one table. The rows of a table
have distinct primary keys and pass its `NOT NULL` and length constraints by
construction, and an insert fails exactly when its rows would break this.
Conditions have three truth values.
-/

set_option autoImplicit false

namespace PipelineX.Sql

variable {α Row Key : Type*}

/-- `none` is `UNKNOWN`. -/
abbrev Truth := Option Bool

def Truth.and : Truth → Truth → Truth
  | some false, _ => some false
  | _, some false => some false
  | some true, some true => some true
  | _, _ => none

theorem Truth.and_eq_true (a b : Truth) :
    a.and b = some true ↔ a = some true ∧ b = some true := by
  rcases a with _ | _ | _ <;> rcases b with _ | _ | _ <;> simp [Truth.and]

/-- A comparison of a column is `UNKNOWN` when the column is `NULL`. -/
def compare (p : α → Bool) (column : Option α) : Truth := column.map p

/-- `AND` over a list of clauses. -/
def conjunction (clauses : List Truth) : Truth := clauses.foldr Truth.and (some true)

theorem conjunction_eq_true (clauses : List Truth) :
    conjunction clauses = some true ↔ ∀ c ∈ clauses, c = some true := by
  induction clauses with
  | nil => simp [conjunction]
  | cons c cs ih =>
    rw [List.forall_mem_cons, ← ih]
    exact Truth.and_eq_true c (conjunction cs)

/-- `WHERE` keeps the rows on which the condition is true. -/
def select (clauses : List (Row → Truth)) (rows : List Row) : List Row :=
  rows.filter (fun row => conjunction (clauses.map (fun c => c row)) = some true)

/-- The declared constraints of a table. -/
structure Schema (Row Key : Type*) where
  key : Row → Key
  admits : Row → Bool

inductive Violation where
  | check
  | primaryKey
  deriving DecidableEq, Repr

structure Table (schema : Schema Row Key) where
  rows : List Row
  distinct : (rows.map schema.key).Nodup
  admitted : ∀ row ∈ rows, schema.admits row = true

namespace Table

variable {schema : Schema Row Key}

def empty : Table schema := ⟨[],List.nodup_nil,by simp⟩

@[simp] theorem rows_empty : (empty : Table schema).rows = [] := rfl

theorem ext_rows {t u : Table schema} (h : t.rows = u.rows) : t = u := by
  cases t
  cases u
  cases h
  rfl

variable [DecidableEq Key]

/-- One `INSERT` statement: all its rows or none. -/
def insert (t : Table schema) (new : List Row) : Except Violation (Table schema) :=
  if ha : ∀ row ∈ new, schema.admits row = true then
    if hd : ((t.rows ++ new).map schema.key).Nodup then
      .ok ⟨t.rows ++ new,hd,fun row h => (List.mem_append.mp h).elim (t.admitted row) (ha row)⟩
    else .error .primaryKey
  else .error .check

/-- The rows may be stored after those of the table. -/
def Fits (t : Table schema) (new : List Row) : Prop :=
  (∀ row ∈ new, schema.admits row = true) ∧ ((t.rows ++ new).map schema.key).Nodup

instance (t : Table schema) (new : List Row) : Decidable (t.Fits new) :=
  inferInstanceAs (Decidable (_ ∧ _))

theorem insert_eq_ok (t u : Table schema) (new : List Row) :
    t.insert new = .ok u ↔ t.Fits new ∧ u.rows = t.rows ++ new := by
  unfold insert Fits
  constructor
  · intro h
    split at h
    · next ha =>
      split at h
      · next hd =>
        cases h
        exact ⟨⟨ha,hd⟩,rfl⟩
      · cases h
    · cases h
  · rintro ⟨⟨ha,hd⟩,hu⟩
    rw [dif_pos ha, dif_pos hd]
    exact congrArg Except.ok (ext_rows hu.symm)

/-- One statement for each row, up to the first that fails. -/
def insertEach (t : Table schema) (new : List Row) : Except Violation (Table schema) :=
  new.foldlM (fun t row => t.insert [row]) t

omit [DecidableEq Key] in
/-- The table with the rows. -/
theorem Fits.extends {t : Table schema} {new : List Row} (h : t.Fits new) :
    ∃ u : Table schema, u.rows = t.rows ++ new :=
  ⟨⟨t.rows ++ new,h.2,fun row hr => (List.mem_append.mp hr).elim (t.admitted row) (h.1 row)⟩,rfl⟩

omit [DecidableEq Key] in
theorem fits_cons (t u : Table schema) (row : Row) (new : List Row)
    (hu : u.rows = t.rows ++ [row]) :
    t.Fits (row::new) ↔ schema.admits row = true ∧ u.Fits new := by
  unfold Fits
  rw [hu, List.append_assoc, List.singleton_append, List.forall_mem_cons, and_assoc]

/-- Statement by statement the same rows go in as in one statement. -/
theorem insertEach_eq_ok (t u : Table schema) (new : List Row) :
    t.insertEach new = .ok u ↔ t.Fits new ∧ u.rows = t.rows ++ new := by
  induction new generalizing t with
  | nil =>
    have hfits : t.Fits [] := ⟨by simp,by simpa using t.distinct⟩
    constructor
    · intro h
      cases h
      exact ⟨hfits,by simp⟩
    · rintro ⟨_,hu⟩
      exact congrArg Except.ok (ext_rows (by simpa using hu.symm))
  | cons row new ih =>
    rw [insertEach, List.foldlM_cons]
    constructor
    · intro h
      cases hv : t.insert [row] with
      | error e =>
        rw [hv] at h
        cases h
      | ok v =>
        rw [hv] at h
        obtain ⟨hfit,hrows⟩ := (insert_eq_ok t v [row]).mp hv
        obtain ⟨hrest,hu⟩ := (ih v).mp h
        refine ⟨(fits_cons t v row new hrows).mpr ⟨hfit.1 row List.mem_cons_self,hrest⟩,?_⟩
        rw [hu, hrows, List.append_assoc, List.singleton_append]
    · rintro ⟨hfit,hu⟩
      have hone : t.Fits [row] := by
        refine ⟨by simpa using hfit.1 row List.mem_cons_self,hfit.2.sublist ?_⟩
        exact (List.Sublist.append_left (by simp) t.rows).map schema.key
      obtain ⟨v,hrows⟩ := hone.extends
      rw [(insert_eq_ok t v [row]).mpr ⟨hone,hrows⟩]
      refine (ih v).mpr ⟨((fits_cons t v row new hrows).mp hfit).2,?_⟩
      rw [hu, hrows, List.append_assoc, List.singleton_append]

end Table
end PipelineX.Sql
