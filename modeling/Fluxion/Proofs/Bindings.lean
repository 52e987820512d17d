import Mathlib.Data.List.Nodup
import Fluxion.Bindings

/-! Lookup in bindings: the last value given to a name counts, and keeping only the last values keeps
every lookup. -/
namespace Fluxion.Bindings
variable {α : Type} {bindings : Bindings α} {name : String} {x : α}

theorem lookup_cons (first : String) (value : α) (rest : Bindings α) :
    lookup name ((first, value) :: rest) =
      (lookup name rest).or (if first = name then some value else none) := by
  rw [lookup]
  cases lookup name rest <;> rfl

theorem lookup_append (earlier later : Bindings α) :
    lookup name (earlier ++ later) = (lookup name later).or (lookup name earlier) := by
  induction earlier with
  | nil => simp [lookup]
  | cons binding earlier ih =>
    rw [List.cons_append, lookup_cons, ih, lookup_cons, Option.or_assoc]

theorem lookup_eq_none_iff : lookup name bindings = none ↔ ∀ binding ∈ bindings, binding.1 ≠ name := by
  induction bindings with
  | nil => simp [lookup]
  | cons binding rest ih =>
    obtain ⟨first, value⟩ := binding
    rw [lookup_cons, Option.or_eq_none_iff, ih, List.forall_mem_cons, and_comm]
    simp

/-- The value of a name is the last one given to it. -/
theorem lookup_eq_some_iff : lookup name bindings = some x ↔
    ∃ earlier later, bindings = earlier ++ (name, x) :: later ∧
      ∀ binding ∈ later, binding.1 ≠ name := by
  constructor
  · intro h
    induction bindings with
    | nil => cases h
    | cons binding rest ih =>
      obtain ⟨first, value⟩ := binding
      rw [lookup_cons, Option.or_eq_some_iff] at h
      rcases h with h | ⟨hnone, h⟩
      · obtain ⟨earlier, later, rfl, hlater⟩ := ih h
        exact ⟨(first, value) :: earlier, later, rfl, hlater⟩
      · obtain ⟨rfl, rfl⟩ : first = name ∧ value = x := by simpa using h
        exact ⟨[], rest, rfl, lookup_eq_none_iff.mp hnone⟩
  · rintro ⟨earlier, later, rfl, hlater⟩
    induction earlier with
    | nil => rw [List.nil_append, lookup_cons, lookup_eq_none_iff.mpr hlater, if_pos rfl]; rfl
    | cons binding earlier ih => rw [List.cons_append, lookup_cons, ih]; rfl

theorem mem_of_lookup (h : lookup name bindings = some x) : (name, x) ∈ bindings := by
  obtain ⟨earlier, later, rfl, -⟩ := lookup_eq_some_iff.mp h
  simp

theorem mem_latest_iff : (name, x) ∈ bindings.latest ↔ lookup name bindings = some x := by
  induction bindings with
  | nil => simp [latest, lookup]
  | cons binding rest ih =>
    obtain ⟨first, value⟩ := binding
    have hany : rest.any (·.1 = first) = true ↔ lookup first rest ≠ none := by
      simp [lookup_eq_none_iff]
    rw [lookup_cons, latest]
    split
    · next hgiven =>
      rw [ih]
      cases hlater : lookup name rest with
      | some later => simp
      | none =>
        have hne : first ≠ name := by
          rintro rfl
          exact hany.mp hgiven hlater
        simp [hne]
    · next hlast =>
      rw [List.mem_cons, ih]
      by_cases hname : first = name
      · subst hname
        have hnone : lookup first rest = none := by simpa using mt hany.mpr hlast
        simp [hnone, eq_comm]
      · simp [hname, Ne.symm hname]

theorem latest_nodup : (bindings.latest.map Prod.fst).Nodup := by
  induction bindings with
  | nil => simp [latest]
  | cons binding rest ih =>
    obtain ⟨first, value⟩ := binding
    rw [latest]
    split
    · exact ih
    · next hnone =>
      rw [List.map_cons, List.nodup_cons]
      refine ⟨fun hmem => hnone ?_, ih⟩
      obtain ⟨⟨name, x⟩, hkept, rfl⟩ := List.mem_map.mp hmem
      exact List.any_eq_true.mpr ⟨_, mem_of_lookup (mem_latest_iff.mp hkept), by simp⟩

/-- Lists with one entry for each name that has a value, and that value, have the same entries. -/
theorem perm_latest {entries : List (String × α)} (hnodup : (entries.map Prod.fst).Nodup)
    (hentries : ∀ name x, (name, x) ∈ entries ↔ lookup name bindings = some x) :
    entries.Perm bindings.latest := by
  rw [List.perm_ext_iff_of_nodup hnodup.of_map latest_nodup.of_map]
  rintro ⟨name, x⟩
  rw [hentries, mem_latest_iff]

end Fluxion.Bindings
