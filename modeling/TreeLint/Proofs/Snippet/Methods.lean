import TreeLint.Proofs.Snippet.Known
import TreeLint.Proofs.Typing.Nearest
import TreeLint.Proofs.Typing.Turns

/-!
# Methods of a declared scope

A scope stores methods under handles of types, and declarations give names. A scope is seen here as the
list of declarations that made it: a type declares a method when a declaration says so, and what the
method returns is what the last one says.

- `Declaration`, `Scope.declareAll`: scopes from lists of declarations.
- `returnOf?`: what the last declaration of a method says. `returnName?_declareAll`: what a scope
  stores is that, by names.
- `Scope.method?_nearest`: a look-up ends, fails only when no type to assign to declares the method,
  and else finds a nearest one.
-/

namespace TreeLint.Snippet

open TypeTable

/-! ## Declarations -/

/-- One declaration in a scope: each constructor is one of the calls that make scopes. -/
inductive Declaration where
  | path (path : String)
  | subtype (sub super : String)
  | method (owner name returns : String)
  | addLocal (name type : String)
  | field (name type : String)
  | withSelf (name : String)
  deriving DecidableEq, Repr

/-- What a declaration of a method `name` of `owner` says that it returns. -/
def Declaration.returns? (owner name : String) : Declaration → Option String
  | .method owner' name' returns => if owner' = owner ∧ name' = name then some returns else none
  | _ => none

/-- What the last of `declarations` about the method `name` of `owner` says that it returns. -/
def returnOf? (declarations : List Declaration) (owner name : String) : Option String :=
  (declarations.filterMap (Declaration.returns? owner name)).getLast?

theorem isSome_returnOf?_iff {declarations : List Declaration} {owner name : String} :
    (returnOf? declarations owner name).isSome = true ↔
      ∃ returned, .method owner name returned ∈ declarations := by
  have hlast : (returnOf? declarations owner name).isSome = true ↔
      declarations.filterMap (Declaration.returns? owner name) ≠ [] := by
    rw [returnOf?, ← Option.ne_none_iff_isSome, ne_eq, List.getLast?_eq_none_iff]
  rw [hlast]
  constructor
  · intro hne
    obtain ⟨returned, hmem⟩ := List.exists_mem_of_ne_nil _ hne
    obtain ⟨declaration, hdeclaration, hreturned⟩ := List.mem_filterMap.mp hmem
    unfold Declaration.returns? at hreturned
    split at hreturned
    · split at hreturned
      · rename_i hsame
        obtain ⟨rfl, rfl⟩ := hsame
        exact ⟨_, hdeclaration⟩
      · cases hreturned
    · cases hreturned
  · rintro ⟨returned, hmem⟩
    exact List.ne_nil_of_mem (List.mem_filterMap.mpr ⟨_, hmem, if_pos ⟨rfl, rfl⟩⟩)

/-- Some declaration says that `type` has a method `name`. -/
def DeclaresMethod (declarations : List Declaration) (types : TypeTable) (type : TypeId)
    (name : String) : Prop :=
  ∃ owner returned, types.typeName? type = some owner ∧ .method owner name returned ∈ declarations

/-- The last declaration of a method of a type says that it returns `returns`. -/
def LastReturns (declarations : List Declaration) (types : TypeTable) (type : TypeId) (name : String)
    (returns : TypeId) : Prop :=
  ∃ owner returned, types.typeName? type = some owner ∧ types.typeName? returns = some returned ∧
    returnOf? declarations owner name = some returned

theorem LastReturns.declaresMethod {declarations : List Declaration} {types : TypeTable}
    {type returns : TypeId} {name : String} (h : LastReturns declarations types type name returns) :
    DeclaresMethod declarations types type name := by
  obtain ⟨owner, _, howner, -, hreturned⟩ := h
  obtain ⟨returned, hmem⟩ := isSome_returnOf?_iff.mp (Option.isSome_of_eq_some hreturned)
  exact ⟨owner, returned, howner, hmem⟩

namespace Scope

variable {scope : Scope} {declaration : Declaration}

/-- The `scope` with one more declaration. -/
def declare (scope : Scope) : Declaration → Scope
  | .path path => { scope with path }
  | .subtype sub super => scope.subtype sub super
  | .method owner name returns => scope.method owner name returns
  | .addLocal name type => scope.addLocal name type
  | .field name type => scope.field name type
  | .withSelf name => scope.withSelf name

/-- The `scope` with more `declarations`. -/
def declareAll (scope : Scope) (declarations : List Declaration) : Scope :=
  declarations.foldl declare scope

theorem declareAll_concat (scope : Scope) (declarations : List Declaration)
    (declaration : Declaration) : scope.declareAll (declarations ++ [declaration]) =
      (scope.declareAll declarations).declare declaration := by
  simp [declareAll]

theorem Declared.declare (h : scope.Declared) (declaration : Declaration) :
    (scope.declare declaration).Declared := by
  cases declaration with
  | path path => exact h.path path
  | subtype sub super => exact h.subtype sub super
  | method owner name returns => exact h.method owner name returns
  | addLocal name type => exact h.addLocal name type
  | field name type => exact h.field name type
  | withSelf name => exact h.withSelf name

theorem declared_declareAll (declarations : List Declaration) :
    (basic.declareAll declarations).Declared :=
  List.foldlRecOn _ _ .basic fun _ h declaration _ => h.declare declaration

/-! ## Methods by names -/

/-- The name of the type that the method `name` returns, by the name of the type that declares it,
`owner`. -/
def returnName? (scope : Scope) (owner name : String) : Option String :=
  (scope.types.lookup? owner).bind fun type =>
    (scope.methods.get? (type, name)).bind scope.types.typeName?

/-- New names in the `table` change no method. -/
theorem Known.returnName?_grow (h : scope.Known) {table : TypeTable} (hclosed : table.Closed)
    (hnames : scope.types.names <+: table.names) (owner name : String) :
    ({ scope with types := table } : Scope).returnName? owner name =
      scope.returnName? owner name := by
  simp only [returnName?]
  cases howner : scope.types.lookup? owner with
  | some type =>
    have htype := typeName?_mono hnames (typeName?_of_lookup? howner)
    rw [hclosed.lookup?_eq_some_iff.mpr htype, Option.bind_some, Option.bind_some]
    cases hget : scope.methods.get? (type, name) with
    | none => rfl
    | some returns =>
      obtain ⟨returned, hreturned⟩ := (h.methods hget).2
      rw [Option.bind_some, Option.bind_some, hreturned, typeName?_mono hnames hreturned]
  | none =>
    rw [Option.bind_none, Option.bind_eq_none_iff]
    intro type htype
    rw [Option.bind_eq_none_iff]
    -- The scope has methods of its own types alone.
    intro returns hget
    obtain ⟨owner', howner'⟩ := (h.methods hget).1
    have hsame := (typeName?_mono hnames howner').symm.trans (typeName?_of_lookup? htype)
    cases hsame
    exact (lookup?_eq_none_iff.mp howner (mem_names_iff.mpr ⟨type, howner'⟩)).elim

theorem returnName?_insert (scope : Scope) (hclosed : scope.types.Closed)
    {type returns : TypeId} {owner returned : String}
    (htype : scope.types.typeName? type = some owner)
    (hreturns : scope.types.typeName? returns = some returned) (name owner' name' : String) :
    ({ scope with methods := scope.methods.insert (type, name) returns } : Scope).returnName?
      owner' name' =
        if owner = owner' ∧ name = name' then some returned else scope.returnName? owner' name' := by
  simp only [returnName?]
  by_cases howner : owner = owner'
  · subst howner
    rw [hclosed.lookup?_eq_some_iff.mpr htype, Option.bind_some, Option.bind_some, Assoc.get?_insert]
    by_cases hname : name = name'
    · rw [if_pos (by rw [hname]), if_pos ⟨rfl, hname⟩, Option.bind_some, hreturns]
    · rw [if_neg (by simp [hname]), if_neg (by simp [hname])]
  · rw [if_neg (fun h => howner h.1)]
    cases hlookup : scope.types.lookup? owner' with
    | none => rfl
    | some other =>
      have hother : type ≠ other := by
        rintro rfl
        exact howner (Option.some.inj (htype.symm.trans (typeName?_of_lookup? hlookup)))
      rw [Option.bind_some, Option.bind_some, Assoc.get?_insert, if_neg (by simp [hother])]

/-- A `declaration` of a method counts from then on, and no other declaration changes a method. -/
theorem Declared.returnName?_declare (h : scope.Declared) (declaration : Declaration)
    (owner name : String) : (scope.declare declaration).returnName? owner name =
      (declaration.returns? owner name).or (scope.returnName? owner name) := by
  have hclosed := (h.declare declaration).known.closed
  have hintern := fun name => (intern_spec h.known.closed name).1
  cases declaration with
  | path path => rfl
  | addLocal other type => exact h.known.returnName?_grow hclosed (hintern type).prefix_names owner name
  | field other type => exact h.known.returnName?_grow hclosed (hintern type).prefix_names owner name
  | withSelf other => exact h.known.returnName?_grow hclosed (hintern other).prefix_names owner name
  | subtype sub super =>
    refine h.known.returnName?_grow hclosed ?_ owner name
    change _ <+: (TypeTable.addSupertype _ _ _).names
    rw [names_addSupertype]
    exact (hintern sub).prefix_names.trans (intern_spec (hintern sub).closed super).1.prefix_names
  | method owner' name' returns =>
    obtain ⟨howner, htype⟩ := intern_spec h.known.closed owner'
    obtain ⟨hreturns, hreturned⟩ := intern_spec howner.closed returns
    have hgrow := h.known.returnName?_grow hreturns.closed
      (howner.prefix_names.trans hreturns.prefix_names) owner name
    have hinsert := returnName?_insert { scope with types := _ } hreturns.closed
      (typeName?_mono hreturns.prefix_names htype) hreturned name' owner name
    rw [hgrow] at hinsert
    refine hinsert.trans ?_
    rw [Declaration.returns?]
    split <;> rfl

/-- What a scope stores of the method `name` is what its last declaration says (`returnOf?`). -/
theorem returnName?_declareAll (declarations : List Declaration) (owner name : String) :
    (basic.declareAll declarations).returnName? owner name = returnOf? declarations owner name := by
  induction declarations using List.reverseRecOn with
  | nil =>
    have hnone : ∀ type, basic.methods.get? (type, name) = none := fun type => rfl
    simp [declareAll, returnName?, hnone, returnOf?]
  | append_singleton declarations declaration ih =>
    have hlast : ([declaration].filterMap (Declaration.returns? owner name)).getLast? =
        declaration.returns? owner name := by
      rw [List.filterMap_cons]
      cases declaration.returns? owner name <;> rfl
    rw [declareAll_concat, (declared_declareAll declarations).returnName?_declare, ih, returnOf?,
      returnOf?, List.filterMap_append, List.getLast?_append, hlast]

variable {declarations : List Declaration} {type : TypeId} {name : String}

/-- What `type` declares of the method `name` is what the last declaration says (`LastReturns`). -/
theorem lastReturns_of_methods {returns : TypeId}
    (hget : (basic.declareAll declarations).methods.get? (type, name) = some returns) :
    LastReturns declarations (basic.declareAll declarations).types type name returns := by
  have hknown := (declared_declareAll declarations).known
  obtain ⟨⟨owner, howner⟩, returned, hreturned⟩ := hknown.methods hget
  refine ⟨owner, returned, howner, hreturned, ?_⟩
  rw [← returnName?_declareAll, returnName?, hknown.closed.lookup?_eq_some_iff.mpr howner,
    Option.bind_some, hget, Option.bind_some, hreturned]

/-- The `type` has a method `name` when some declaration says so (`DeclaresMethod`). -/
theorem isSome_methods_iff :
    ((basic.declareAll declarations).methods.get? (type, name)).isSome = true ↔
      DeclaresMethod declarations (basic.declareAll declarations).types type name := by
  constructor
  · intro hsome
    obtain ⟨returns, hget⟩ := Option.isSome_iff_exists.mp hsome
    exact (lastReturns_of_methods hget).declaresMethod
  · rintro ⟨owner, returned, howner, hmem⟩
    have hlookup := (declared_declareAll declarations).known.closed.lookup?_eq_some_iff.mpr howner
    have hsome := isSome_returnOf?_iff.mpr ⟨returned, hmem⟩
    rw [← returnName?_declareAll, returnName?, hlookup, Option.bind_some] at hsome
    exact Option.isSome_of_isSome_bind hsome

/-! ## The nearest declaration -/

/-- **The nearest method.** Let `declarations` make a `scope`. A look-up of the method `name` of
`owner` ends after at most as many `turns` as supertypes are declared, and one, whatever is declared
above what. It finds nothing exactly when no type to which `owner` is assignable declares the
method. What it finds is a `type` to which `owner` is assignable, with what the last declaration of
the method there says that it returns, and no `other` type that declares the method is fewer
declarations away. -/
theorem method?_nearest (declarations : List Declaration) (owner : TypeId) (name : String) :
    let scope := basic.declareAll declarations
    (∃ turns ≤ scope.types.declarationCount + 1, scope.types.Ends
      (fun type => (scope.methods.get? (type, name)).map (type, ·)) [] [owner] turns
      (scope.method? owner name)) ∧
    (scope.method? owner name = none ↔ ∀ type, scope.types.isAssignable owner type = true →
      ¬ DeclaresMethod declarations scope.types type name) ∧
    ∀ type returns, scope.method? owner name = some (type, returns) →
      LastReturns declarations scope.types type name returns ∧
      scope.types.isAssignable owner type = true ∧
      ∃ steps, scope.types.Climbs owner steps type ∧
        ∀ other n, DeclaresMethod declarations scope.types other name →
          scope.types.Climbs owner n other → steps ≤ n := by
  intro scope
  have hanswer : ∀ type, ((scope.methods.get? (type, name)).map (type, ·)).isSome = true ↔
      DeclaresMethod declarations scope.types type name := fun type => by
    rw [Option.isSome_map, isSome_methods_iff]
  refine ⟨?_, ?_, fun type returns hfound => ?_⟩
  · exact exists_ends_search? scope.types _ owner
  · rw [← Option.not_isSome_iff_eq_none, Scope.method?, search?_isSome_iff, not_exists]
    simp only [not_and, hanswer, isAssignable_iff]
  · obtain ⟨found, steps, hclimbs, hfound, hnearest⟩ := nearest_of_search? hfound
    obtain ⟨returns', hget, hpair⟩ := Option.map_eq_some_iff.mp hfound
    obtain ⟨rfl, rfl⟩ := Prod.mk.inj hpair
    exact ⟨lastReturns_of_methods hget, isAssignable_iff.mpr hclimbs.above, steps, hclimbs,
      fun other n hother hn => hnearest other n hn ((hanswer other).mpr hother)⟩

/-- Two ways up from `A`, the second to a method that is nearer, and a way back down. -/
def roundDeclarations : List Declaration :=
  [.method "D" "m" "int", .subtype "A" "B", .subtype "B" "D", .subtype "D" "A", .subtype "A" "C",
    .method "C" "m" "int", .method "C" "m" "long"]

/-- From `A`, which is above itself, the nearer method is found, with the type that was declared for
it last. -/
theorem method?_nearest_roundDeclarations :
    let scope := basic.declareAll roundDeclarations
    scope.method? ⟨8⟩ "m" = some (⟨10⟩, ⟨2⟩) ∧ scope.types.typeName? ⟨10⟩ = some "C" ∧
      scope.types.typeName? ⟨2⟩ = some "long" ∧ scope.types.isAssignable ⟨8⟩ ⟨10⟩ = true ∧
      scope.types.isAssignable ⟨8⟩ ⟨8⟩ = true ∧
      ¬ DeclaresMethod roundDeclarations scope.types ⟨8⟩ "m" := by
  intro scope
  obtain ⟨hmethods, habove, hbelow, hC, hlong⟩ :
      scope.methods = [((⟨7⟩, "m"), ⟨1⟩), ((⟨10⟩, "m"), ⟨2⟩)] ∧
      scope.types.supertypes ⟨8⟩ = [⟨9⟩, ⟨10⟩] ∧ scope.types.supertypes ⟨9⟩ = [⟨7⟩] ∧
      scope.types.typeName? ⟨10⟩ = some "C" ∧ scope.types.typeName? ⟨2⟩ = some "long" := by
    decide +kernel
  have hfound : scope.method? ⟨8⟩ "m" = some (⟨10⟩, ⟨2⟩) := by
    simp [Scope.method?, search?, searchFrom?, hmethods, Assoc.get?, habove, hbelow]
  obtain ⟨-, -, hnearest⟩ := method?_nearest roundDeclarations ⟨8⟩ "m"
  obtain ⟨-, hassignable, steps, hclimbs, hsteps⟩ := hnearest ⟨10⟩ ⟨2⟩ hfound
  refine ⟨hfound, hC, hlong, hassignable, isAssignable_iff.mpr .refl, fun hdeclares => ?_⟩
  -- A method of the type itself would be nearer than any other.
  obtain rfl := Nat.le_zero.mp (hsteps ⟨8⟩ 0 hdeclares .here)
  cases hclimbs

end Scope

end TreeLint.Snippet
