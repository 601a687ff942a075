import TreeLint.Proofs.Suppress.Comments
import TreeLint.Proofs.Suppress.Naming
import TreeLint.Rule.DiscardedResult

/-!
# What an allowance rests on

A rule may be broken at a line if a comment of the line says so, or one of the line before when that
has nothing but comments. The search for a directive is coarser than a reading of the line: it takes
the first opener to open a comment, and a line that begins with a comment to have nothing else. So
it allows more, in the ways that are listed here.

- `IsDirective`: the text of a comment is a directive.
- `Rule.CoveredAt`: a comment allows to break the rule at a line.
- `Astray`, `Rule.MisreadAt`: how the search goes astray.
- `allowed_covered_or_misread`: every allowance rests on a comment or on a misreading.
-/

namespace TreeLint

open Text

/-! ## Directives -/

/-- The text `comment` of a comment is a directive with these `keys`. -/
def IsDirective (comment : List Char) (keys : List String) : Prop :=
  ∃ before between list rest, Blank before ∧ Blank between ∧ ')' ∉ list ∧
    comment = before ++ "sift:".toList ++ between ++ "allow(".toList ++ list ++ ')' :: rest ∧
    AllowDirective.keysOf list = keys

namespace AllowDirective

variable {line text : List Char} {directive : AllowDirective} {keys : List String}

/-- What the search takes for a comment: what is behind the first two slashes, or behind the first
`/*` of a line without two slashes. -/
theorem comment?_eq_some_iff : comment? line = some text ↔
    (∃ front, cutAt? ['/', '/'] line = some (front, text)) ∨
    cutAt? ['/', '/'] line = none ∧ ∃ front, cutAt? ['/', '*'] line = some (front, text) := by
  rw [comment?]
  cases cutAt? ['/', '/'] line with
  | some cut => simp [Prod.ext_iff]
  | none => simp

theorem keysOf_blank {before : List Char} (h : Blank before) (list : List Char) :
    keysOf (before ++ list) = keysOf list := by
  have hcomma : ',' ∉ before := h.not_mem (by decide)
  cases hparts : splitOn ',' list with
  | nil => exact absurd hparts (splitOn_ne_nil ',' list)
  | cons part parts =>
    rw [keysOf, keysOf, splitOn_append_of_not_mem hcomma hparts, hparts, List.map_cons,
      List.map_cons, trim_blank_append h]

/-- What is behind `opening`: a blank text, then `rest` without blanks at its ends. -/
theorem exists_of_behind? {opening : String} {rest : List Char}
    (h : behind? opening text = some rest) :
    ∃ before after, Blank before ∧ Blank after ∧
      text = opening.toList ++ (before ++ rest ++ after) := by
  obtain ⟨back, hback, rfl⟩ := Option.map_eq_some_iff.mp h
  obtain ⟨before, after, hbefore, hafter, heq⟩ := exists_trim back
  exact ⟨before, after, hbefore, hafter, by rw [← heq, append_of_isPrefixOf? hback]⟩

/-- A `line` has a `directive` only where the search takes one for the text of a comment. -/
theorem isDirective_of_ofLine? (h : ofLine? line = some directive) :
    ∃ text, comment? line = some text ∧ IsDirective text directive.keys := by
  simp only [ofLine?, Option.bind_eq_bind, Option.bind_eq_some_iff] at h
  obtain ⟨text, htext, rest, hsift, ⟨list, back⟩, ⟨keyed, hallow, hclose⟩, hkeys⟩ := h
  have hdirective : keysOf list = directive.keys := by
    simp only at hkeys
    split at hkeys
    · cases hkeys
    · cases hkeys
      rfl
  obtain ⟨before, after, hbefore, -, htrim⟩ := exists_trim text
  obtain ⟨copies, hcopies⟩ := isPrefix_dropEndCopies ['*', '/'] (trim text)
  obtain ⟨inside, outside, hinside, -, hcomment⟩ :=
    exists_trim (dropEndCopies ['*', '/'] (trim text))
  obtain ⟨between, behind, hbetween, -, hrest⟩ := exists_of_behind? hsift
  obtain ⟨first, last, hfirst, -, hkeyed⟩ := exists_of_behind? hallow
  refine ⟨text, htext, before ++ inside, between, first ++ list,
    back ++ last ++ behind ++ outside ++ copies ++ after, hbefore.append hinside, hbetween, ?_, ?_,
    (keysOf_blank hfirst list).trans hdirective⟩
  · intro hmem
    rcases List.mem_append.mp hmem with hmem | hmem
    · exact hfirst.not_mem (by decide) hmem
    · exact not_mem_of_cutAt? hclose hmem
  · rw [htrim, ← hcopies, hcomment, hrest, hkeyed, ← append_of_cutAt? hclose]
    simp

end AllowDirective

/-! ## Coverage -/

namespace Rule

/-- A comment of `line` is a directive that names `rule`. -/
def CommentedIn (rule : Rule) (line : List Char) : Prop :=
  ∃ comment ∈ lineComments line, ∃ keys, IsDirective comment keys ∧ ∃ key ∈ keys, rule.NamedBy key

/-- A comment allows to break `rule` at `line`: one of the line, or one of the line before when that
has nothing but blanks and comments (`OwnLine`). -/
inductive CoveredAt (rule : Rule) (source : List Char) (line : Nat) : Prop
  | beside {text : List Char} (htext : lineAt? source line = some text)
      (hcomment : rule.CommentedIn text)
  | before {text : List Char} (htext : lineAt? source (line - 1) = some text)
      (hcomment : rule.CommentedIn text) (hown : OwnLine text)

end Rule

/-- The text that the search takes for a comment of `line` is not the text of one. -/
inductive Astray (line : List Char) : Prop
  /-- The first two slashes stand in a literal or in a comment, which `front` leaves open. -/
  | slashes {front text : List Char} (hfound : cutAt? ['/', '/'] line = some (front, text))
      (hopen : ¬ Settled front)
  /-- The first `/*` stands in a literal, which `front` leaves open. -/
  | star {front text : List Char} (hnone : cutAt? ['/', '/'] line = none)
      (hfound : cutAt? ['/', '*'] line = some (front, text)) (hopen : ¬ Settled front)
  /-- The comment, `body`, is closed in front of the first parenthesis that could close the list of
  keys. -/
  | early {front text body back : List Char} (hnone : cutAt? ['/', '/'] line = none)
      (hfound : cutAt? ['/', '*'] line = some (front, text))
      (hclose : cutAt? ['*', '/'] text = some (body, back)) (hkeys : ')' ∉ body)

/-- The `rule` is allowed by a misreading: where the search has gone astray, or on a line before
that begins with a comment and goes on with code. -/
inductive Rule.MisreadAt (rule : Rule) (source : List Char) (line : Nat) : Prop
  | beside {text : List Char} {directive : AllowDirective}
      (htext : lineAt? source line = some text) (hdirected : rule.DirectedAt source line directive)
      (hastray : Astray text)
  | before {text : List Char} {directive : AllowDirective}
      (htext : lineAt? source (line - 1) = some text) (hcomment : isCommentLine text = true)
      (hdirected : rule.DirectedAt source (line - 1) directive)
      (hbad : Astray text ∨ ¬ OwnLine text)

section

variable {front line text body keyed : List Char} {keys : List String} {rule : Rule}
  {source : List Char} {n : Nat}

/-- The part `body` of a comment up to the end of its list of keys decides. -/
theorem IsDirective.of_isPrefix (h : IsDirective text keys) (hstart : body <+: text)
    (hclose : ')' ∈ body) : IsDirective body keys := by
  obtain ⟨before, between, list, rest, hbefore, hbetween, hlist, htext, hkeys⟩ := h
  obtain ⟨tail, rfl⟩ := hstart
  have hhead : ')' ∉ before ++ "sift:".toList ++ between ++ "allow(".toList ++ list := by
    have hfront : ')' ∉ before := hbefore.not_mem (by decide)
    have hmiddle : ')' ∉ between := hbetween.not_mem (by decide)
    simp [hfront, hmiddle, hlist]
  rcases List.append_eq_append_iff.mp htext with ⟨x, hhead', -⟩ | ⟨x, hbody, hrest⟩
  · exact absurd (hhead' ▸ List.mem_append_left x hclose) hhead
  · cases x with
    | nil =>
      rw [List.append_nil] at hbody
      exact absurd (hbody ▸ hclose) hhead
    | cons c x =>
      cases hrest
      exact ⟨before, between, list, x, hbefore, hbetween, hlist, hbody, hkeys⟩

/-- No slash stands right in front of the opener that is found: `front` does not end in one. -/
theorem getLast?_of_cutAt? {c : Char} (hfound : cutAt? ['/', c] line = some (front, text))
    (hfirst : c = '/' ∨ cutAt? ['/', '/'] line = none) : front.getLast? ≠ some '/' := by
  intro hlast
  obtain ⟨before, rfl⟩ := List.getLast?_eq_some_iff.mp hlast
  have hline : line = before ++ (['/', '/'] ++ c :: text) := by
    rw [← append_of_cutAt? hfound]
    simp
  rcases hfirst with rfl | hnone
  · have hle := length_le_of_cutAt? (hline ▸ hfound)
    rw [List.length_append, List.length_singleton] at hle
    omega
  · exact cutAt?_eq_none_iff.mp hnone ⟨before, c :: text, by rw [hline, List.append_assoc]⟩

/-- The `pattern` does not stand in `front` of the place where it is found. -/
theorem not_infix_of_cutAt? {pattern : List Char}
    (hfound : cutAt? pattern line = some (front, text)) (hpattern : pattern ≠ []) :
    ¬ pattern <:+: front := by
  rintro ⟨a, b, rfl⟩
  have hline : line = a ++ (pattern ++ (b ++ pattern ++ text)) := by
    rw [← append_of_cutAt? hfound]
    simp
  have hle := length_le_of_cutAt? (hline ▸ hfound)
  have hpos := List.length_pos_iff.mpr hpattern
  rw [List.length_append, List.length_append] at hle
  omega

/-- A search in a `line` without quotes and comments in block form does not go astray. -/
theorem not_astray_plain (hquote : '"' ∉ line) (hblock : ¬ ['/', '*'] <:+: line) :
    ¬ Astray line := by
  have hnone {front text : List Char} (hfound : cutAt? ['/', '*'] line = some (front, text)) :
      False :=
    hblock ⟨front, text, by rw [List.append_assoc, append_of_cutAt? hfound]⟩
  intro hastray
  cases hastray with
  | @slashes front text hfound hopen =>
    have hstart : front <+: line := ⟨_, append_of_cutAt? hfound⟩
    exact hopen (settled_plain (fun hmem => hquote (hstart.subset hmem))
      (not_infix_of_cutAt? hfound (by decide)) fun hinside => hblock (hinside.trans hstart.isInfix))
  | star _ hfound _ => exact hnone hfound
  | early _ hfound _ _ => exact hnone hfound

/-- A `line` without comments in block form that begins with a comment has nothing else. -/
theorem ownLine_plain (hblock : ¬ ['/', '*'] <:+: line) (hcomment : isCommentLine line = true) :
    OwnLine line := by
  have hline : line = line.takeWhile isBlank ++ trimFront line :=
    (List.takeWhile_append_dropWhile).symm
  have hblank : Blank (line.takeWhile isBlank) := fun c hc => List.mem_takeWhile_imp hc
  have hquote : '"' ∉ line.takeWhile isBlank := hblank.not_mem (by decide)
  have hnot : '/' ∉ line.takeWhile isBlank := hblank.not_mem (by decide)
  have hslash : ∀ d, ¬ ['/', d] <:+: line.takeWhile isBlank := fun d hinside =>
    hnot (hinside.subset List.mem_cons_self)
  obtain ⟨text, htext⟩ : ['/', '/'] <+: trimFront line := by
    rcases Bool.or_eq_true_iff.mp hcomment with hslashes | hstar
    · exact List.isPrefixOf_iff_prefix.mp hslashes
    · have hstart := List.isPrefixOf_iff_prefix.mp hstar
      exact absurd (hstart.isInfix.trans (List.dropWhile_suffix isBlank).isInfix) hblock
  have hparts : lineParts line =
      (line.takeWhile isBlank).map .code ++ [.lineComment text] := by
    have hlast : (line.takeWhile isBlank).getLast? ≠ some '/' := fun hlast =>
      hnot (List.mem_of_getLast? hlast)
    conv_lhs => rw [hline, ← htext]
    rw [lineParts_append (settled_plain hquote (hslash _) (hslash _)) hlast,
      lineParts_plain hquote (hslash _) (hslash _)]
    rfl
  intro part hpart
  rw [hparts, List.mem_append, List.mem_singleton] at hpart
  rcases hpart with hpart | rfl
  · obtain ⟨c, hc, rfl⟩ := List.mem_map.mp hpart
    exact hblank c hc
  · rfl

/-- Unless the search has gone `Astray`, what it takes for a `directive` is in a comment. -/
theorem exists_comment_of_ofLine? {directive : AllowDirective}
    (h : AllowDirective.ofLine? line = some directive) (hastray : ¬ Astray line) :
    ∃ comment ∈ lineComments line, IsDirective comment directive.keys := by
  have hparts {c : Char} {front text : List Char}
      (hfound : cutAt? ['/', c] line = some (front, text))
      (hfirst : c = '/' ∨ cutAt? ['/', '/'] line = none) (hsettled : Settled front) :
      lineParts line = lineParts front ++ lineParts ('/' :: c :: text) := by
    rw [← append_of_cutAt? hfound]
    exact lineParts_append hsettled (getLast?_of_cutAt? hfound hfirst) _
  obtain ⟨text, htext, hdirective⟩ := AllowDirective.isDirective_of_ofLine? h
  -- The text in front of the opener is settled, so the opener does open a comment.
  rcases AllowDirective.comment?_eq_some_iff.mp htext with
    ⟨front, hfound⟩ | ⟨hnone, front, hfound⟩
  · have hsettled : Settled front := by
      by_contra hopen
      exact hastray (.slashes hfound hopen)
    have hmem : LinePart.lineComment text ∈ lineParts line := by
      rw [hparts hfound (.inl rfl) hsettled]
      exact List.mem_append_right _ (List.mem_singleton.mpr rfl)
    exact ⟨text, List.mem_filterMap.mpr ⟨_, hmem, rfl⟩, hdirective⟩
  · have hsettled : Settled front := by
      by_contra hopen
      exact hastray (.star hnone hfound hopen)
    have hline := hparts hfound (.inr hnone) hsettled
    rw [lineParts_block] at hline
    have hcomment {body : List Char} {closed : Bool} {back : List LinePart}
        (hblock : lineParts line = lineParts front ++ .blockComment body closed :: back) :
        body ∈ lineComments line := by
      refine List.mem_filterMap.mpr ⟨.blockComment body closed, ?_, rfl⟩
      rw [hblock]
      exact List.mem_append_right _ List.mem_cons_self
    cases hclose : cutAt? ['*', '/'] text with
    | none =>
      rw [hclose] at hline
      exact ⟨text, hcomment hline, hdirective⟩
    | some cut =>
      obtain ⟨body, back⟩ := cut
      rw [hclose] at hline
      have hkeys : ')' ∈ body := by
        by_contra hkeys
        exact hastray (.early hnone hfound hclose hkeys)
      exact ⟨body, hcomment hline,
        hdirective.of_isPrefix ⟨['*', '/'] ++ back, append_of_cutAt? hclose⟩ hkeys⟩

end

namespace Rule

variable {rule : Rule} {source text : List Char} {line : Nat} {directive : AllowDirective}

theorem exists_allowed_iff : (∃ reason, allowance source line rule = .allowed reason) ↔
    ∃ directive, rule.ExcusedAt source line directive := by
  simp only [allowance_eq_allowed_iff]
  exact ⟨fun ⟨_, directive, h, _⟩ => ⟨directive, h⟩, fun ⟨directive, h⟩ => ⟨_, directive, h, rfl⟩⟩

/-- A `directive` on the line itself counts, if there is no `other` on the line before that comes
first. -/
theorem DirectedAt.exists_excusedAt (h : rule.DirectedAt source line directive) :
    ∃ other, rule.ExcusedAt source line other := by
  by_cases hbefore : CommentLineAt source (line - 1) ∧
      ∃ other, rule.DirectedAt source (line - 1) other
  · obtain ⟨hcomment, other, hother⟩ := hbefore
    exact ⟨other, .before hcomment hother⟩
  · exact ⟨directive, .beside (fun hcomment other hother => hbefore ⟨hcomment, other, hother⟩) h⟩

theorem commentedIn_of_directedAt (htext : lineAt? source line = some text)
    (h : rule.DirectedAt source line directive) (hastray : ¬ Astray text) :
    rule.CommentedIn text := by
  obtain ⟨text', htext', hline, hnamed⟩ := h
  obtain rfl := Option.some.inj (htext.symm.trans htext')
  obtain ⟨comment, hcomment, hdirective⟩ := exists_comment_of_ofLine? hline hastray
  exact ⟨comment, hcomment, directive.keys, hdirective, hnamed⟩

theorem ExcusedAt.covered_or_misread (h : rule.ExcusedAt source line directive) :
    rule.CoveredAt source line ∨ rule.MisreadAt source line := by
  cases h with
  | before hcomment hdirected =>
    obtain ⟨text, htext, hcomment⟩ := hcomment
    by_cases hbad : Astray text ∨ ¬ OwnLine text
    · exact .inr (.before htext hcomment hdirected hbad)
    · obtain ⟨hastray, hown⟩ := not_or.mp hbad
      exact .inl (.before htext (commentedIn_of_directedAt htext hdirected hastray)
        (not_not.mp hown))
  | beside _ hdirected =>
    obtain ⟨text, htext, -⟩ := id hdirected
    by_cases hastray : Astray text
    · exact .inr (.beside htext hdirected hastray)
    · exact .inl (.beside htext (commentedIn_of_directedAt htext hdirected hastray))

end Rule

/-- **An allowance rests on a comment, or on a misreading.** Where `rule` may be broken, a comment
of `line` names it in a directive, or one of the line before does that has nothing but comments
(`CoveredAt`), or else the line was misread (`MisreadAt`): the opener that was found stands in a
literal or in a comment, the comment ends in front of its list of keys, or code follows the comment
with which the line before begins. Every such misreading allows the rule. There is none where the
two lines have neither quotes nor comments in block form. -/
theorem allowed_covered_or_misread (source : List Char) (line : Nat) (rule : Rule) :
    (∀ reason, allowance source line rule = .allowed reason →
      rule.CoveredAt source line ∨ rule.MisreadAt source line) ∧
    (rule.MisreadAt source line → ∃ reason, allowance source line rule = .allowed reason) ∧
    ((∀ n text, n = line ∨ n = line - 1 → lineAt? source n = some text →
        '"' ∉ text ∧ ¬ ['/', '*'] <:+: text) → ¬ rule.MisreadAt source line) := by
  refine ⟨fun reason h => ?_, fun h => Rule.exists_allowed_iff.mpr ?_, fun hplain h => ?_⟩
  · obtain ⟨directive, hexcused, -⟩ := Rule.allowance_eq_allowed_iff.mp h
    exact hexcused.covered_or_misread
  · cases h with
    | beside htext hdirected => exact hdirected.exists_excusedAt
    | before htext hcomment hdirected => exact ⟨_, .before ⟨_, htext, hcomment⟩ hdirected⟩
  · cases h with
    | beside htext _ hastray =>
      obtain ⟨hquote, hblock⟩ := hplain _ _ (.inl rfl) htext
      exact not_astray_plain hquote hblock hastray
    | before htext hcomment _ hbad =>
      obtain ⟨hquote, hblock⟩ := hplain _ _ (.inr rfl) htext
      exact hbad.elim (not_astray_plain hquote hblock)
        fun hown => hown (ownLine_plain hblock hcomment)

/-- A directive on a line of its own, above the statement. -/
def ownLineText : List Char := "// sift: allow(SF001)\ns.trim();".toList

theorem allowed_covered_or_misread_ownLineText :
    allowance ownLineText 2 DiscardedResult.default.rule = .allowed none ∧
      DiscardedResult.default.rule.CoveredAt ownLineText 2 := by
  have hallowed : allowance ownLineText 2 DiscardedResult.default.rule = .allowed none := by
    decide +kernel
  obtain ⟨hcovered, -, hplain⟩ :=
    allowed_covered_or_misread ownLineText 2 DiscardedResult.default.rule
  have hfirst : lineAt? ownLineText 1 = some "// sift: allow(SF001)".toList := by decide +kernel
  have hsecond : lineAt? ownLineText 2 = some "s.trim();".toList := by decide +kernel
  refine ⟨hallowed, (hcovered none hallowed).resolve_right (hplain fun n text hn htext => ?_)⟩
  rcases hn with rfl | rfl
  · obtain rfl := Option.some.inj (hsecond.symm.trans htext)
    decide +kernel
  · obtain rfl := Option.some.inj (hfirst.symm.trans htext)
    decide +kernel

/-- A directive behind code, on a line that begins with another comment, `/* note */`. -/
def trailedText : List Char :=
  "/* note */ n.add(n); // sift: allow(SF001) reason=\"ok\"\ns.trim();".toList

/-- A directive in a literal, the argument of `log`. -/
def quotedText : List Char := "log(\"// sift: allow(SF001)\");".toList

/-- A directive behind code can reach the next line (`trailedText`), and one in a literal counts
(`quotedText`). -/
theorem not_all_allowances_covered :
    (allowance trailedText 2 DiscardedResult.default.rule = .allowed (some "ok") ∧
      ¬ DiscardedResult.default.rule.CoveredAt trailedText 2) ∧
    allowance quotedText 1 DiscardedResult.default.rule = .allowed none ∧
      ¬ DiscardedResult.default.rule.CoveredAt quotedText 1 := by
  refine ⟨⟨by decide +kernel, fun h => ?_⟩, by decide +kernel, fun h => ?_⟩
  · have hfirst : lineAt? trailedText 1 =
        some "/* note */ n.add(n); // sift: allow(SF001) reason=\"ok\"".toList := by decide +kernel
    have hsecond : lineAt? trailedText 2 = some "s.trim();".toList := by decide +kernel
    cases h with
    | beside htext hcomment =>
      obtain rfl := Option.some.inj (hsecond.symm.trans htext)
      obtain ⟨comment, hmem, -⟩ := hcomment
      have hnone : lineComments "s.trim();".toList = [] := by decide
      rw [hnone] at hmem
      cases hmem
    | before htext _ hown =>
      obtain rfl := Option.some.inj (hfirst.symm.trans htext)
      exact absurd hown (by decide)
  · have hfirst : lineAt? quotedText 1 = some quotedText := by decide +kernel
    have hnone : lineComments quotedText = [] := by decide +kernel
    cases h with
    | beside htext hcomment =>
      obtain rfl := Option.some.inj (hfirst.symm.trans htext)
      obtain ⟨comment, hmem, -⟩ := hcomment
      rw [hnone] at hmem
      cases hmem
    | before htext => cases htext

end TreeLint
