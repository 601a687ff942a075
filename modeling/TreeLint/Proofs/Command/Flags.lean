import Mathlib.Data.List.TakeWhile
import TreeLint.Command.Request
import TreeLint.Proofs.Text.Searching

/-!
# Flags on a command line

A flag that has no letter is found exactly when it stands on the command line by its name, in front
of two dashes alone. In particular it is never taken for the value of a switch.

- `Command.Given`: a flag stands on a command line.
- `Reading.next_open`: what one argument adds. `has_of_all`, `append_of_all`: what all of them add.
- `fixMode_of_arguments`: what a check does with fixes, told from the command line alone.
-/

namespace TreeLint.Command

/-- The flag `name` stands in `args`, where a switch can stand: in front of any `--` alone. -/
def Given (name : String) (args : List String) : Prop :=
  "--" ++ name ∈ args.takeWhile (· ≠ "--")

instance (name : String) (args : List String) : Decidable (Given name args) :=
  inferInstanceAs (Decidable (_ ∈ _))

section

variable {name arg : String} {args : List String}

theorem given_cons (h : arg ≠ "--") :
    Given name (arg :: args) ↔ arg = "--" ++ name ∨ Given name args := by
  simp only [Given]
  rw [List.takeWhile_cons_of_pos (by simpa using h), List.mem_cons, eq_comm]

theorem not_given_dashes (name : String) (args : List String) : ¬ Given name ("--" :: args) := by
  simp [Given]

theorem given_append {front : List String} (h : "--" ∉ front) :
    Given name (front ++ args) ↔ "--" ++ name ∈ front ∨ Given name args := by
  induction front with
  | nil => simp
  | cons arg front ih =>
    obtain ⟨hne, hfront⟩ := not_or.mp (mt List.mem_cons.mpr h)
    rw [List.cons_append, given_cons (Ne.symm hne), ih hfront, List.mem_cons, or_assoc, eq_comm]

end

/-- A `name` that two dashes bring forward as it is. -/
structure IsLongName (name : String) : Prop where
  ne_nil : name.toList ≠ []
  no_sign : '=' ∉ name.toList

theorem IsLongName.dashes_ne {name : String} (h : IsLongName name) : "--" ++ name ≠ "--" := by
  rw [← String.toList_inj.ne, String.toList_append]
  simpa using h.ne_nil

/-- What goes by `name` in `shape` is a flag without a letter. -/
def Shape.PlainFlag (shape : Shape) (name : String) : Prop :=
  ∀ s ∈ shape.switches, s.name = name → s.takesValue = false ∧ s.letter = none

instance (shape : Shape) (name : String) : Decidable (shape.PlainFlag name) :=
  inferInstanceAs (Decidable (∀ s ∈ shape.switches, _))

namespace Reading

variable {shape : Shape} {r r' : Reading} {s : Switch} {name arg value : String}
  {args : List String} {rest : Option (String × List String)}

/-- The reading `r` waits for no value of a switch called `name`. -/
def Free (r : Reading) (name : String) : Prop := ∀ s, r.awaiting = some s → s.name ≠ name

/-- What a part of the command line may do to a reading `r` with respect to `name`: the reading `r'`
behind it has the flag exactly if `r` had it or it was `named`. -/
structure Adds (r r' : Reading) (name : String) (named : Prop) : Prop where
  has : r'.has name = true ↔ r.has name = true ∨ named
  free : r'.Free name

theorem Adds.trans {r'' : Reading} {named named' : Prop} (h : r.Adds r' name named)
    (h' : r'.Adds r'' name named') : r.Adds r'' name (named ∨ named') :=
  ⟨by rw [h'.has, h.has, or_assoc], h'.free⟩

theorem Adds.congr {named named' : Prop} (h : r.Adds r' name named) (hiff : named ↔ named') :
    r.Adds r' name named' :=
  ⟨h.has.trans (or_congr_right hiff), h.free⟩

/-! ## One argument -/

theorem take_cases (h : r.take s value = .ok r') :
    r' = { r with found := r.found ++ [(s.name, value)], awaiting := none } := by
  simp only [take] at h
  split at h
  · cases h
  · exact (Except.ok.inj h).symm
  · split at h
    · cases h
    · exact (Except.ok.inj h).symm
  · split at h
    · cases h
    · exact (Except.ok.inj h).symm

theorem closed_take (h : r.take s value = .ok r') : r'.closed = r.closed := by
  rw [take_cases h]

theorem adds_take (h : r.take s value = .ok r') : r.Adds r' name (s.name = name) := by
  obtain rfl := take_cases h
  refine ⟨?_, fun s hs => by cases hs⟩
  have hlookup : List.lookup name [(s.name, value)] =
      if s.name = name then some value else none := by
    by_cases hname : s.name = name
    · simp [hname]
    · simp [List.lookup_cons, beq_false_of_ne (Ne.symm hname), hname]
  rw [has, has, List.lookup_append, hlookup, Option.isSome_or, Bool.or_eq_true]
  by_cases hname : s.name = name <;> simp [hname]

theorem takeOperand_cases (h : r.takeOperand shape arg = .ok r') :
    r' = { r with operands := r.operands ++ [arg] } := by
  simp only [takeOperand] at h
  split at h
  · cases h
  · exact (Except.ok.inj h).symm

theorem adds_takeOperand (hfree : r.Free name) (h : r.takeOperand shape arg = .ok r') :
    r.Adds r' name False := by
  obtain rfl := takeOperand_cases h
  exact ⟨by simp [has], hfree⟩

/-- Two dashes and `body` add the flag that `body` names, and no other. -/
theorem takeName_open {body : List Char} (hflag : shape.PlainFlag name) (hname : IsLongName name)
    (h : r.takeName shape body = .ok r') :
    r'.closed = r.closed ∧ r.Adds r' name (body = name.toList) ∧
      (body = name.toList → ∃ s ∈ shape.switches, s.name = name) := by
  simp only [takeName] at h
  -- With an equals sign, `body` is not the name, and the switch in front of it takes a value.
  cases hcut : Text.cutAt? ['='] body with
  | none =>
    simp only [hcut] at h
    cases hfind : shape.switches.find? fun s => s.name.toList == body with
    | none => simp [hfind] at h
    | some s =>
      have hmem := List.mem_of_find?_eq_some hfind
      have hstands : s.name.toList = body := by simpa using List.find?_some hfind
      have hbody : s.name = name ↔ body = name.toList := by rw [← String.toList_inj, hstands]
      have hknown : body = name.toList → ∃ s ∈ shape.switches, s.name = name :=
        fun heq => ⟨s, hmem, hbody.mpr heq⟩
      cases htakes : s.takesValue with
      | false =>
        simp only [hfind, htakes] at h
        exact ⟨closed_take h, (adds_take h).congr hbody, hknown⟩
      | true =>
        have hne : s.name ≠ name := fun heq => by simp [(hflag s hmem heq).1] at htakes
        simp only [hfind, htakes, Except.ok.injEq] at h
        subst h
        refine ⟨rfl, ⟨by simp [has, mt hbody.mpr hne], ?_⟩, hknown⟩
        intro s' hs'
        rwa [← Option.some.inj hs']
  | some cut =>
    obtain ⟨front, back⟩ := cut
    have hother : body ≠ name.toList := by
      rintro rfl
      rw [Text.cutAt?_of_not_mem hname.no_sign] at hcut
      cases hcut
    simp only [hcut] at h
    cases hfind : shape.switches.find? fun s => s.name.toList == front with
    | none => simp [hfind] at h
    | some s =>
      cases htakes : s.takesValue with
      | false => simp [hfind, htakes] at h
      | true =>
        have hne : s.name ≠ name := fun heq => by
          simp [(hflag s (List.mem_of_find?_eq_some hfind) heq).1] at htakes
        simp only [hfind, htakes] at h
        exact ⟨closed_take h, (adds_take h).congr (by simp [hne, hother]),
          fun heq => absurd heq hother⟩

/-- A run of `letters` adds no flag without a letter. -/
theorem takeLetters_open {letters : List Char} (hflag : shape.PlainFlag name) (hfree : r.Free name)
    (h : takeLetters shape r letters = .ok r') :
    r'.closed = r.closed ∧ r.Adds r' name False := by
  induction letters generalizing r with
  | nil =>
    cases h
    exact ⟨rfl, by simp, hfree⟩
  | cons c letters ih =>
    simp only [takeLetters] at h
    cases hfind : shape.switches.find? (·.letter = some c) with
    | none => simp [hfind] at h
    | some s =>
      have hne : s.name ≠ name := fun heq => by
        have hletter : s.letter = some c := by simpa using List.find?_some hfind
        simp [(hflag s (List.mem_of_find?_eq_some hfind) heq).2] at hletter
      -- The switch of a letter has a letter, so it is not the flag.
      have hadds {value : String} {next : Reading} (h : r.take s value = .ok next) :
          next.closed = r.closed ∧ r.Adds next name False :=
        ⟨closed_take h, (adds_take h).congr (iff_false_intro hne)⟩
      simp only [hfind] at h
      cases htakes : s.takesValue with
      | true =>
        simp only [htakes, if_true] at h
        split at h
        · cases h
          refine ⟨rfl, by simp [has], fun s' hs' => ?_⟩
          rwa [← Option.some.inj hs']
        · exact hadds h
        · exact hadds h
      | false =>
        simp only [htakes] at h
        cases hnext : r.take s "" with
        | error why => simp [hnext] at h
        | ok next =>
          obtain ⟨hclosed, hfirst⟩ := hadds hnext
          simp only [hnext] at h
          obtain ⟨hclosed', hrest⟩ := ih hfirst.free h
          exact ⟨hclosed'.trans hclosed, (hfirst.trans hrest).congr (by simp)⟩

/-- One argument `arg` adds the flag that it is; `--` alone closes the reading. -/
theorem next_open (hflag : shape.PlainFlag name) (hname : IsLongName name)
    (hopen : r.closed = false) (hfree : r.Free name) (h : r.next shape arg = .ok r') :
    (r'.closed = true ↔ arg = "--") ∧ r.Adds r' name (arg = "--" ++ name) ∧
      (arg = "--" ++ name → ∃ s ∈ shape.switches, s.name = name) := by
  have hlong : arg = "--" ++ name ↔ arg.toList = '-' :: '-' :: name.toList := by
    rw [← String.toList_inj, String.toList_append]
    rfl
  have hdashes : arg = "--" ↔ arg.toList = ['-', '-'] := by
    rw [← String.toList_inj]
    rfl
  have hother (hnot : ∀ body, arg.toList ≠ '-' :: '-' :: body) (hclosed : r'.closed = r.closed)
      (hadds : r.Adds r' name False) : (r'.closed = true ↔ arg.toList = ['-', '-']) ∧
        r.Adds r' name (arg.toList = '-' :: '-' :: name.toList) ∧
        (arg.toList = '-' :: '-' :: name.toList → ∃ s ∈ shape.switches, s.name = name) :=
    ⟨by simp [hclosed, hopen, hnot], hadds.congr (by simp [hnot]), fun heq => absurd heq (hnot _)⟩
  rw [hlong, hdashes]
  simp only [next, hopen, Bool.false_eq_true, if_false] at h
  split at h
  · cases h
  · -- Two dashes alone.
    rename_i hchars _
    cases h
    have hne : ['-', '-'] ≠ '-' :: '-' :: name.toList := by simp [hname.ne_nil.symm]
    rw [hchars]
    exact ⟨by simp, ⟨by simp [has, hne], hfree⟩, fun heq => absurd heq hne⟩
  · -- A name behind two dashes.
    rename_i body hbody hchars _
    obtain ⟨hclosed, hadds, hknown⟩ := takeName_open hflag hname h
    rw [hchars, hclosed, hopen]
    exact ⟨by simpa using hbody, by simpa using hadds, by simpa using hknown⟩
  · -- Letters behind one dash.
    rename_i hdash hchars _
    obtain ⟨hclosed, hadds⟩ := takeLetters_open hflag hfree h
    exact hother (fun body => by simp [hchars, show _ ≠ _ from hdash]) hclosed hadds
  · -- A value.
    rename_i s hawait hplain
    exact hother (fun body => hplain _ _) (closed_take h)
      ((adds_take h).congr (iff_false_intro (hfree s hawait)))
  · -- An operand.
    rename_i hplain
    exact hother (fun body => hplain _ _) (by rw [takeOperand_cases h]) (adds_takeOperand hfree h)

/-! ## All of them -/

/-- The first argument `arg` is taken, or it is a subcommand, and `args` are left to that. -/
theorem all_cons_cases (h : r.all shape (arg :: args) = .ok (r', rest)) :
    (r.closed = false ∧ arg ∈ shape.subcommands ∧ rest = some (arg, args)) ∨
      ∃ next, r.next shape arg = .ok next ∧ next.all shape args = .ok (r', rest) := by
  simp only [all] at h
  split at h
  · rename_i hcommand
    simp only [Bool.and_eq_true, Bool.not_eq_true', List.contains_iff_mem] at hcommand
    cases h
    exact .inl ⟨hcommand.1.1, hcommand.2, rfl⟩
  · cases hnext : r.next shape arg with
    | error why => simp [hnext] at h
    | ok next =>
      simp only [hnext] at h
      exact .inr ⟨next, rfl, h⟩

theorem all_nil_cases (h : r.all shape [] = .ok (r', rest)) : r' = r ∧ rest = none := by
  simp only [all] at h
  split at h
  · cases h
  · cases h
    exact ⟨rfl, rfl⟩

theorem rest_of_all (hnone : shape.subcommands = []) (h : r.all shape args = .ok (r', rest)) :
    rest = none := by
  induction args generalizing r with
  | nil => exact (all_nil_cases h).2
  | cons arg args ih =>
    rcases all_cons_cases h with ⟨-, hmem, -⟩ | ⟨next, -, hall⟩
    · simp [hnone] at hmem
    · exact ih hall

/-- Behind `--` alone, nothing more is `found`, and no subcommand is. -/
theorem all_closed (hclosed : r.closed = true) (h : r.all shape args = .ok (r', rest)) :
    r'.found = r.found ∧ rest = none := by
  induction args generalizing r with
  | nil =>
    obtain ⟨rfl, rfl⟩ := all_nil_cases h
    exact ⟨rfl, rfl⟩
  | cons arg args ih =>
    rcases all_cons_cases h with ⟨hopen, -⟩ | ⟨next, hnext, hall⟩
    · simp [hclosed] at hopen
    · simp only [Reading.next, hclosed, if_true] at hnext
      have hnext := takeOperand_cases hnext
      obtain ⟨hfound, hrest⟩ := ih (by rw [hnext]; exact hclosed) hall
      exact ⟨by rw [hfound, hnext], hrest⟩

/-- Arguments `args` without a subcommand add the flag `name` exactly if it is `Given`. -/
theorem has_of_all (hflag : shape.PlainFlag name) (hname : IsLongName name)
    (hopen : r.closed = false) (hfree : r.Free name) (h : r.all shape args = .ok (r', none)) :
    r'.has name = true ↔ r.has name = true ∨ Given name args := by
  induction args generalizing r with
  | nil =>
    obtain ⟨rfl, -⟩ := all_nil_cases h
    simp [Given]
  | cons arg args ih =>
    rcases all_cons_cases h with ⟨-, -, hsome⟩ | ⟨next, hnext, hall⟩
    · cases hsome
    obtain ⟨hdashes, hadds, -⟩ := next_open hflag hname hopen hfree hnext
    by_cases hclosed : next.closed = true
    · obtain rfl := hdashes.mp hclosed
      have hsame : r'.has name = next.has name := by rw [has, has, (all_closed hclosed hall).1]
      simp [hsame, hadds.has, hname.dashes_ne.symm, not_given_dashes]
    · rw [ih (eq_false_of_ne_true hclosed) hadds.free hall, hadds.has,
        given_cons (mt hdashes.mpr hclosed), or_assoc]

/-- In the `front` of a subcommand there is no `--` alone, and no switch that `shape` does not
know. -/
theorem append_of_all {command : String} {behind : List String} (hflag : shape.PlainFlag name)
    (hname : IsLongName name) (hopen : r.closed = false) (hfree : r.Free name)
    (h : r.all shape args = .ok (r', some (command, behind))) :
    ∃ front, args = front ++ command :: behind ∧ "--" ∉ front ∧
      ("--" ++ name ∈ front → ∃ s ∈ shape.switches, s.name = name) := by
  induction args generalizing r with
  | nil => cases (all_nil_cases h).2
  | cons arg args ih =>
    rcases all_cons_cases h with ⟨-, -, hsome⟩ | ⟨next, hnext, hall⟩
    · cases hsome
      exact ⟨[], rfl, List.not_mem_nil, fun hmem => absurd hmem List.not_mem_nil⟩
    obtain ⟨hdashes, hadds, hknown⟩ := next_open hflag hname hopen hfree hnext
    have hclosed : next.closed ≠ true := fun hclosed => by cases (all_closed hclosed hall).2
    obtain ⟨front, rfl, hfront, hbehind⟩ :=
      ih (eq_false_of_ne_true hclosed) hadds.free hall
    refine ⟨arg :: front, rfl, ?_, fun hmem => ?_⟩
    · exact List.not_mem_cons_of_ne_of_not_mem (Ne.symm (mt hdashes.mpr hclosed)) hfront
    · rcases List.mem_cons.mp hmem with heq | hmem
      · exact hknown heq.symm
      · exact hbehind hmem

end Reading

/-! ## What a check does with fixes -/

theorem request_check_cases {args : List String} {env : Environment} {o : CheckOptions}
    (h : Request.ofArguments args env = .ok (.check o)) :
    ∃ outer behind inner config,
      Reading.all outerShape {} args = .ok (outer, some ("check", behind)) ∧
      Reading.all checkShape {} behind = .ok (inner, none) ∧
      checkRequest inner config = .ok (.check o) := by
  simp only [Request.ofArguments, bind, Except.bind] at h
  cases houter : Reading.all outerShape {} args with
  | error why => simp [houter] at h
  | ok read =>
    obtain ⟨outer, rest⟩ := read
    simp only [houter] at h
    split at h
    · rename_i behind
      cases hinner : Reading.all checkShape {} behind with
      | error why => simp [hinner] at h
      | ok read =>
        obtain ⟨inner, rest⟩ := read
        obtain rfl := Reading.rest_of_all rfl hinner
        cases hconfig : configPath outer inner env with
        | error why => simp [hinner, hconfig] at h
        | ok config =>
          simp only [hinner, hconfig] at h
          exact ⟨outer, behind, inner, config, rfl, hinner, h⟩
    -- No other command asks for a check.
    · split at h
      · cases h
      · split at h <;> cases h
    · split at h
      · cases h
      · split at h <;> cases h
    · cases h
    · cases h

/-- What a check does with fixes depends on the flags that `r` has found. -/
theorem fixMode_checkRequest {r : Reading} {config : Option String} {o : CheckOptions}
    (h : checkRequest r config = .ok (.check o)) :
    (r.has "dry-run" = true → r.has "fix" = true) ∧
      o.fixMode = if r.has "dry-run" then .preview else if r.has "fix" then .write else .off := by
  simp only [checkRequest] at h
  split at h
  · cases h
  · rename_i hboth
    cases h
    exact ⟨by simpa using hboth, rfl⟩

/-- A check writes corrections if `--fix` is given and `--dry-run` is not, and shows them if both
are given. -/
theorem fixMode_of_arguments {args : List String} {env : Environment} {o : CheckOptions}
    (h : Request.ofArguments args env = .ok (.check o)) :
    (Given "dry-run" args → Given "fix" args) ∧
      o.fixMode = if Given "dry-run" args then .preview
        else if Given "fix" args then .write else .off := by
  obtain ⟨outer, behind, inner, config, houter, hinner, hrequest⟩ := request_check_cases h
  have hgiven {name : String} (hname : IsLongName name) (hcommand : "check" ≠ "--" ++ name)
      (hflag : checkShape.PlainFlag name) (hunknown : ∀ s ∈ outerShape.switches, s.name ≠ name) :
      inner.has name = true ↔ Given name args := by
    have houterFlag : outerShape.PlainFlag name := fun s hs heq => absurd heq (hunknown s hs)
    obtain ⟨front, rfl, hfront, hknown⟩ :=
      Reading.append_of_all houterFlag hname rfl (fun s hs => by cases hs) houter
    have hnot : "--" ++ name ∉ front := fun hmem => by
      obtain ⟨s, hs, heq⟩ := hknown hmem
      exact hunknown s hs heq
    rw [Reading.has_of_all hflag hname rfl (fun s hs => by cases hs) hinner, given_append hfront,
      given_cons (by decide)]
    simp [Reading.has, hnot, hcommand]
  have hdry : inner.has "dry-run" = true ↔ Given "dry-run" args :=
    hgiven ⟨by decide, by decide⟩ (by decide) (by decide) (by decide)
  have hfix : inner.has "fix" = true ↔ Given "fix" args :=
    hgiven ⟨by decide, by decide⟩ (by decide) (by decide) (by decide)
  obtain ⟨hboth, hmode⟩ := fixMode_checkRequest hrequest
  simp only [hdry, hfix] at hboth hmode
  exact ⟨hboth, hmode⟩

end TreeLint.Command
