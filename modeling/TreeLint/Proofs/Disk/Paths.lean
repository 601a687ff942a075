import Mathlib.Data.List.Sort
import Mathlib.Data.String.Basic
import TreeLint.Ignore.Walk
import TreeLint.Proofs.Text.Searching

/-!
# The order of places and the parts of paths

- `Place.Before`: one place comes before another. Places are in one strict order, and adding the
  same folders above two of them does not change which comes first.
- `Place.Named`: the names are such as files and folders have.
- `Path.parts_join`, `Path.parts_relative`: the path of a file below a folder has the parts of the
  folder and then the names that lead to the file.
-/

namespace TreeLint

namespace Place

/-- Whether the place `p` comes before another one, `q`. -/
def Before (p q : Place) : Prop := atMost p q = true ∧ p ≠ q

/-- Whether each `name` of `p` is that of a file or folder: not empty, and without a slash. -/
def Named (p : Place) : Prop := ∀ name ∈ p, name ≠ "" ∧ '/' ∉ name.toList

instance (p : Place) : Decidable p.Named := inferInstanceAs (Decidable (∀ name ∈ p, _))

variable {p q : Place}

theorem atMost_total (p q : Place) : (atMost p q || atMost q p) = true := by
  induction p generalizing q with
  | nil => rfl
  | cons a p ih =>
    cases q with
    | nil => rfl
    | cons b q =>
      rcases lt_trichotomy a b with hab | rfl | hba
      · simp [atMost, hab, hab.ne]
      · simpa [atMost] using ih q
      · simp [atMost, hba, hba.ne]

theorem atMost_antisymm (hpq : atMost p q = true) (hqp : atMost q p = true) : p = q := by
  induction p generalizing q with
  | nil =>
    cases q with
    | nil => rfl
    | cons b q => cases hqp
  | cons a p ih =>
    cases q with
    | nil => cases hpq
    | cons b q =>
      by_cases hab : a = b
      · subst hab
        rw [ih (by simpa [atMost] using hpq) (by simpa [atMost] using hqp)]
      · simp only [atMost, hab, Ne.symm hab, if_false, decide_eq_true_eq] at hpq hqp
        exact absurd hqp hpq.asymm

theorem atMost_trans (p q r : Place) (hpq : atMost p q = true) (hqr : atMost q r = true) :
    atMost p r = true := by
  induction p generalizing q r with
  | nil => rfl
  | cons a p ih =>
    cases q with
    | nil => cases hpq
    | cons b q =>
      cases r with
      | nil => cases hqr
      | cons c r =>
        by_cases hab : a = b
        · subst hab
          by_cases hac : a = c
          · subst hac
            simp only [atMost, if_true] at hpq hqr ⊢
            exact ih q r hpq hqr
          · simpa [atMost, hac] using hqr
        · have hlt : a < b := by simpa [atMost, hab] using hpq
          have hle : b ≤ c := by
            by_cases hbc : b = c
            · exact hbc.le
            · exact le_of_lt (by simpa [atMost, hbc] using hqr)
          have hac : a < c := hlt.trans_le hle
          simp [atMost, hac, hac.ne]

/-- The same folders `above` two places do not change which comes first. -/
theorem atMost_append (above p q : Place) : atMost (above ++ p) (above ++ q) = atMost p q := by
  induction above with
  | nil => rfl
  | cons a above ih => simpa [atMost] using ih

theorem before_append_iff {above : Place} : Before (above ++ p) (above ++ q) ↔ p.Before q := by
  simp [Before, atMost_append]

/-! ## Sorting -/

/-- Different `places` are in the strict order `Before` when they are sorted. -/
theorem pairwise_before_mergeSort {places : List Place} (h : places.Nodup) :
    (places.mergeSort atMost).Pairwise Before :=
  (List.pairwise_mergeSort atMost_trans atMost_total places).and
    ((List.mergeSort_perm places atMost).nodup_iff.mpr h)

/-- What comes out of sorting `places` does not depend on the order that was there before. -/
theorem mergeSort_eq_of_perm {places places' : List Place} (h : places.Perm places') :
    places.mergeSort atMost = places'.mergeSort atMost :=
  List.Perm.eq_of_pairwise (fun _ _ _ _ => atMost_antisymm)
    (List.pairwise_mergeSort atMost_trans atMost_total places)
    (List.pairwise_mergeSort atMost_trans atMost_total places')
    ((List.mergeSort_perm ..).trans (h.trans (List.mergeSort_perm ..).symm))

end Place

/-! ## Cutting at slashes -/

namespace Path

theorem parts_append_slash (base path : String) :
    parts (base ++ "/" ++ path) = parts base ++ parts path := by
  have hslash : (base ++ "/" ++ path).toList = base.toList ++ '/' :: path.toList := by simp
  simp only [parts, hslash, Text.splitOn_append, List.filter_append, List.map_append]

/-- A slash at the end of `base` adds no part. -/
theorem parts_of_getLast? {base : String} (h : base.toList.getLast? = some '/') (path : String) :
    parts (base ++ path) = parts base ++ parts path := by
  obtain ⟨front, hfront⟩ := List.getLast?_eq_some_iff.mp h
  have hbase : base = String.ofList front ++ "/" := by
    apply String.toList_inj.mp
    simp [hfront]
  have hempty : parts "" = [] := rfl
  rw [hbase, parts_append_slash]
  conv_rhs => rw [← String.append_empty (s := String.ofList front ++ "/"), parts_append_slash]
  rw [hempty, List.append_nil]

theorem parts_join {base path : String} (h : isAbsolute path = false) :
    parts (join base path) = parts base ++ parts path := by
  simp only [join, h, Bool.false_or]
  by_cases hempty : base.isEmpty = true
  · rw [if_pos hempty, String.isEmpty_iff.mp hempty]
    rfl
  · rw [if_neg hempty]
    by_cases hslash : base.toList.getLast? = some '/'
    · rw [if_pos hslash, parts_of_getLast? hslash]
    · rw [if_neg hslash, parts_append_slash]

theorem parts_name {name : String} (h : name ≠ "" ∧ '/' ∉ name.toList) : parts name = [name] := by
  have hne : name.toList ≠ [] := fun hnil => h.1 (String.toList_eq_nil_iff.mp hnil)
  simp [parts, Text.splitOn_of_not_mem h.2, hne]

/-- The parts of the relative path of `names` are the `names`. -/
theorem parts_relative {names : Place} (h : names.Named) :
    parts (Place.relative names) = names := by
  induction names with
  | nil => rfl
  | cons name names ih =>
    obtain ⟨hname, hnames⟩ := List.forall_mem_cons.mp h
    cases names with
    | nil => simpa [Place.relative] using parts_name hname
    | cons next names =>
      have hcons : Place.relative (name :: next :: names) =
          name ++ "/" ++ Place.relative (next :: names) := String.intercalate_cons_cons
      rw [hcons, parts_append_slash, parts_name hname, ih hnames, List.singleton_append]

theorem isAbsolute_relative {names : Place} (h : names.Named) :
    isAbsolute (Place.relative names) = false := by
  cases names with
  | nil => rfl
  | cons name names =>
    obtain ⟨⟨hne, hslash⟩, -⟩ := List.forall_mem_cons.mp h
    cases hname : name.toList with
    | nil => exact absurd (String.toList_eq_nil_iff.mp hname) hne
    | cons c cs =>
      have hc : c ≠ '/' := fun hc => hslash (by simp [hname, hc])
      cases names <;> simp [isAbsolute, Place.relative, hname, hc, String.intercalate_cons_cons]

end Path

end TreeLint
