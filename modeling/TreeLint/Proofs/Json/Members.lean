import Mathlib.Data.Nat.Digits.Defs
import TreeLint.Proofs.Json.RoundTrip
import TreeLint.Unit.Render

/-!
# Reading back the members of an object

An object is written with the members that are present and read as a record in which the others have
their defaults. A record that names its own shape is read in two steps: the name first, then the
fields that belong to it.

- `record_ofMembers`, `record_present`: an object with members of a record, or with those of them
  that are present, is read as the record.
- `required_present`, `withDefault_present`, `optional_present`: what its fields then are.
- `tagged_ofMembers`: an object that names its shape.
-/

namespace TreeLint

open Decode (Fields)

/-! ## Members that are present -/

/-- The members of an object that are present, as a list: those with a `value`. -/
def present (members : List (String × Option Json)) : List (String × Json) :=
  members.filterMap fun (key, value) => value.map (key, ·)

theorem keys_present_sublist (members : List (String × Option Json)) :
    ((present members).map Prod.fst).Sublist (members.map Prod.fst) := by
  induction members with
  | nil => exact .slnil
  | cons member members ih =>
    obtain ⟨key, value⟩ := member
    cases value with
    | none => exact ih.cons _
    | some v => exact ih.cons_cons _

theorem lookup_eq_none_of_not_mem {key : String} {members : List (String × Json)}
    (h : key ∉ members.map Prod.fst) : members.lookup key = none := by
  rw [List.lookup_eq_none_iff]
  intro member hmember
  have hne : key ≠ member.1 := fun heq => h (heq ▸ List.mem_map_of_mem hmember)
  simpa using hne

theorem lookup_present {members : List (String × Option Json)}
    (h : (members.map Prod.fst).Nodup) (key : String) :
    (present members).lookup key = (members.lookup key).join := by
  induction members with
  | nil => rfl
  | cons member members ih =>
    obtain ⟨key', value⟩ := member
    obtain ⟨hnot, hnodup⟩ := List.nodup_cons.mp h
    have hrest := ih hnodup
    by_cases hkey : key = key'
    · subst hkey
      have hnone : (present members).lookup key = none :=
        lookup_eq_none_of_not_mem fun hmem => hnot ((keys_present_sublist members).subset hmem)
      cases value with
      | none => simpa [present] using hnone
      | some v => simp [present]
    · have hbeq : (key == key') = false := by simpa using hkey
      rw [List.lookup_cons, hbeq]
      cases value with
      | none => exact hrest
      | some v =>
        rw [show present ((key', some v) :: members) = (key', v) :: present members from rfl,
          List.lookup_cons, hbeq]
        exact hrest

/-- What `read` returns one by one from what `print` made of `l`, it returns as a list. -/
theorem mapM_map_eq_some_of_mem {α β : Type} {print : α → β} {read : β → Option α} {l : List α}
    (h : ∀ a ∈ l, read (print a) = some a) : (l.map print).mapM read = some l := by
  induction l with
  | nil => rfl
  | cons a l ih =>
    obtain ⟨ha, hl⟩ := List.forall_mem_cons.mp h
    rw [List.map_cons, List.mapM_cons, ha, ih hl]
    rfl

theorem mapM_map_eq_some {α β : Type} {print : α → β} {read : β → Option α}
    (h : ∀ a, read (print a) = some a) (l : List α) : (l.map print).mapM read = some l :=
  mapM_map_eq_some_of_mem fun a _ => h a

/-- An object with `members` that a record has among its `names` is read as the record. -/
theorem record_ofMembers {names : List String} {members : List (String × Json)}
    (hnames : ∀ key ∈ members.map Prod.fst, key ∈ names) (hnodup : (members.map Prod.fst).Nodup)
    (levels : Nat) :
    Decode.record names (levels + 1) (.ofMembers members) = some ⟨levels, members⟩ := by
  have hkeys : (members.map fun member => (some member.1, member.2)).mapM
      (fun member => member.1.map (·, member.2)) = some members := by
    refine mapM_map_eq_some (fun member => ?_) _
    rfl
  have hknown : members.filter (fun member => names.contains member.1) = members := by
    rw [List.filter_eq_self]
    intro member hmember
    simpa using hnames _ (List.mem_map_of_mem hmember)
  rw [Json.ofMembers, Decode.record, hkeys]
  simp only [Option.bind_eq_bind, Option.bind_some, hknown]
  rw [if_pos hnodup]

theorem record_present {names : List String} {members : List (String × Option Json)}
    (hnames : ∀ key ∈ members.map Prod.fst, key ∈ names) (hnodup : (members.map Prod.fst).Nodup)
    (levels : Nat) :
    Decode.record names (levels + 1) (presentMembers members) = some ⟨levels, present members⟩ := by
  have hsub := keys_present_sublist members
  exact record_ofMembers (fun key hkey => hnames key (hsub.subset hkey)) (hsub.nodup hnodup) levels

section

variable {α : Type} {members : List (String × Option Json)} (hnodup : (members.map Prod.fst).Nodup)
  (levels : Nat) (name : String) (d : Decoder α)

include hnodup

theorem required_present : Fields.required ⟨levels, present members⟩ name d =
    (members.lookup name).join.bind (d levels) := by
  rw [Fields.required, lookup_present hnodup]

theorem withDefault_present (default : α) :
    Fields.withDefault ⟨levels, present members⟩ name default d =
      ((members.lookup name).join.map (d levels)).getD (some default) := by
  rw [Fields.withDefault, lookup_present hnodup]
  cases (members.lookup name).join <;> rfl

theorem optional_present : Fields.optional ⟨levels, present members⟩ name d =
    ((members.lookup name).join.map (Decode.nullable d levels)).getD (some none) :=
  withDefault_present hnodup levels name _ none

end

/-- A field that is left out when it has its `default` is read as it was. -/
theorem getD_unlessDefault {α : Type} {isDefault : Bool} {v : Json} {read : Json → Option α}
    {a default : α} (hread : read v = some a) (hdefault : isDefault = true → a = default) :
    ((if isDefault then none else some v).map read).getD (some default) = some a := by
  cases isDefault with
  | true => rw [hdefault rfl]; rfl
  | false => exact hread

/-! ## Scalars -/

theorem decode_ofString (levels : Nat) (s : String) :
    Decode.string levels (.ofString s) = some s := rfl

/-- A field that may be absent is read by `nullable` as it was written. -/
theorem nullable_map {α : Type} {d : Decoder α} {levels : Nat} {print : α → Json}
    (h : ∀ a, d levels (print a) = some a) (hnull : ∀ a, print a ≠ .null) (value : Option α) :
    ((value.map print).map (Decode.nullable d levels)).getD (some none) = some value := by
  cases value with
  | none => rfl
  | some a =>
    change Decode.nullable d levels (print a) = some (some a)
    have hne := hnull a
    cases hp : print a with
    | null => exact (hne hp).elim
    | _ => rw [Decode.nullable, ← hp, h] <;> simp

theorem decode_ofNat {bound n : Nat} (h : n ≤ bound) (levels : Nat) :
    Decode.nat bound levels (.ofNat n) = some n := by
  simp [Decode.nat, Json.ofNat, JsonNumber.toNat?, JsonNumber.isInteger, h]

/-! ## Tagged unions -/

/-- A machine word `n` is a finite number. -/
theorem isFinite_of_le {n : Nat} (h : n ≤ Decode.maxWord) :
    JsonNumber.isFinite { whole := n } = true := by
  have hlength : (Nat.toDigits 10 n).length ≤ 20 :=
    Nat.toDigits_length 10 n 20 (by decide) (by rw [Decode.maxWord] at h; omega)
  have hsignificand : JsonNumber.significand { whole := n } = n := rfl
  have hscale : JsonNumber.scale { whole := n } = 0 := rfl
  rw [JsonNumber.isFinite, hsignificand, hscale]
  split
  · rfl
  · rw [if_neg (by omega), if_pos (by omega)]

/-- An object that names its shape under `tag` is read as a record of that shape, the one called
`name`. -/
theorem tagged_ofMembers {α : Type} {tag name : String}
    {shapes : List (String × List String × (Fields → Option α))} {names : List String}
    {read : Fields → Option α} (hshape : shapes.lookup name = some (names, read))
    {members : List (String × Json)} (htag : tag ∉ members.map Prod.fst) (levels : Nat)
    (hheld : Decode.isHeld (levels + 1) (.ofMembers ((tag, .ofString name) :: members)) = true) :
    Decode.tagged tag shapes (levels + 1) (.ofMembers ((tag, .ofString name) :: members)) =
      (Decode.record names (levels + 1) (.ofMembers members)).bind read := by
  have hother : ∀ member ∈ members.map fun member => (some member.1, member.2),
      member.1 ≠ some tag := by
    rw [List.forall_mem_map]
    intro member hmember heq
    exact htag (Option.some.inj heq ▸ List.mem_map_of_mem hmember)
  have hnone : (members.map fun member => (some member.1, member.2)).filter
      (·.1 == some tag) = [] :=
    List.filter_eq_nil_iff.mpr fun member hmember => by simpa using hother member hmember
  have hall : (members.map fun member => (some member.1, member.2)).filter
      (·.1 != some tag) = members.map fun member => (some member.1, member.2) :=
    List.filter_eq_self.mpr fun member hmember => by simpa using hother member hmember
  rw [Decode.tagged, Decode.held, if_pos hheld, Json.ofMembers, Json.ofMembers, List.map_cons]
  simp [hnone, hall, hshape, Json.ofString]

/-! ## Texts -/

theorem plain_presentMembers {members : List (String × Option Json)}
    (h : ∀ member ∈ members, ∀ v ∈ member.2, v.Plain) : (presentMembers members).Plain := by
  refine Json.plain_ofMembers fun member hmember => ?_
  obtain ⟨⟨key, value⟩, hmem, heq⟩ := List.mem_filterMap.mp hmember
  obtain ⟨v, hv, rfl⟩ := Option.map_eq_some_iff.mp heq
  exact h _ hmem v hv

end TreeLint
