import TreeLint.Proofs.Snippet.Effects

/-!
# Splices of snippets

The edits of a revision are made in the text of a snippet. The lexemes of the result are those of the
snippet without the statements that are taken away, and with what is put in; so its tokens are those
of the revised pieces.

- `Lexes.replace`: lexemes stand in front of another text when the last of them does.
- `exists_run`: lexemes come apart around the tokens of a piece.
- `Piece.edits`: the edits that a piece asks for.
- `Spliceable`, `Spliceable.succeeds`: when the edits can be made, and the lexemes of the result.
-/

namespace TreeLint

/-! ## Lexemes in front of another text -/

section

variable {ls : List Lexeme} {rest rest' : List Char}

/-- What stands behind lexemes `ls` matters to the last of them alone. -/
theorem Lexes.replace (h : Lexes ls rest)
    (hlast : ∀ l ∈ ls.getLast?, l.InFront rest → l.InFront rest') : Lexes ls rest' := by
  induction ls with
  | nil => trivial
  | cons l ls ih =>
    obtain ⟨hfront, hlexes⟩ := h
    cases ls with
    | nil => exact ⟨hlast l rfl hfront, trivial⟩
    | cons m ls =>
      obtain ⟨c, body, hchars⟩ := hlexes.1.1.exists_cons
      exact ⟨hfront.congr (by simp [hchars]), ih hlexes hlast⟩

theorem Lexes.congr (h : Lexes ls rest) (hhead : rest.head? = rest'.head?) : Lexes ls rest' :=
  h.replace fun _ _ hfront => hfront.congr hhead

/-- A text begins with the first of its lexemes `ls`, whatever is behind them. -/
theorem Lexes.head?_append (h : Lexes ls rest) (hls : ls ≠ []) (cs cs' : List Char) :
    (textOf ls ++ cs).head? = (textOf ls ++ cs').head? := by
  cases ls with
  | nil => exact absurd rfl hls
  | cons l ls =>
    obtain ⟨c, body, hchars⟩ := h.1.1.exists_cons
    simp [hchars]

theorem Lexes.bytesOf_pos (h : Lexes ls rest) (hls : ls ≠ []) : 0 < bytesOf ls := by
  cases ls with
  | nil => exact absurd rfl hls
  | cons l ls =>
    rw [bytesOf_cons]
    exact Nat.add_pos_left h.1.1.size_pos _

/-- Blanks and comments `ls` in front of a token stand in front of any text `rest'`. -/
theorem Lexes.of_gap {offset : Nat} {c : Char} (h : Lexes ls (c :: rest)) (hc : c ≠ '\n')
    (hgap : tokensAt offset ls = []) (rest' : List Char) : Lexes ls rest' :=
  h.replace fun l hl hfront =>
    hfront.of_gap hc (tokensAt_eq_nil_iff.mp hgap l (List.mem_of_getLast? hl)) rest'

end

/-- Lexemes `ls` come apart around tokens `ts`: what is between tokens (`gap`), the lexemes from the
first of `ts` up to the last (`run`), and the rest (`back`). -/
theorem exists_run {offset : Nat} {ls : List Lexeme} {ts us : List SnippetToken} (hts : ts ≠ [])
    (h : tokensAt offset ls = ts ++ us) :
    ∃ gap run back, ls = gap ++ (run ++ back) ∧ tokensAt offset gap = [] ∧
      tokensAt (offset + bytesOf gap) run = ts ∧
      tokensAt (offset + bytesOf gap + bytesOf run) back = us ∧
      (∃ first ∈ run.head?, ∃ t ∈ ts.head?, first.token? (offset + bytesOf gap) = some t) ∧
      ∃ last ∈ run.getLast?, ∃ t ∈ ts.getLast?, last.kind = .token t.kind ∧
        t.span.stop = offset + bytesOf gap + bytesOf run := by
  obtain ⟨t, ts, rfl⟩ := List.exists_cons_of_ne_nil hts
  obtain ⟨gap, first, behind, rfl, hgap, hfirst, hbehind⟩ :=
    @exists_append_of_tokensAt _ _ [] _ _ h
  rcases List.eq_nil_or_concat ts with rfl | ⟨middle, last, rfl⟩
  · refine ⟨gap, [first], behind, rfl, hgap, ?_, ?_, ⟨first, rfl, t, rfl, hfirst⟩, first, rfl, t, rfl,
      ?_⟩
    · simp [tokensAt, hfirst]
    · simpa using hbehind
    · obtain ⟨hkind, hspan, -⟩ := Lexeme.token?_eq_some_iff.mp hfirst
      exact ⟨hkind, by simp [hspan]⟩
  · replace hbehind : tokensAt (offset + bytesOf gap + first.size) behind = middle ++ last :: us := by
      simpa using hbehind
    obtain ⟨inner, l, back, rfl, hinner, hl, hback⟩ := exists_append_of_tokensAt hbehind
    refine ⟨gap, first :: (inner ++ [l]), back, by simp, hgap, ?_, ?_, ⟨first, rfl, t, rfl, hfirst⟩,
      l, by simp [List.getLast?_cons], last, by simp [List.getLast?_cons], ?_⟩
    · simp [tokensAt, tokensAt_append, hfirst, hinner, hl]
    · simpa [Nat.add_assoc] using hback
    · obtain ⟨hkind, hspan, -⟩ := Lexeme.token?_eq_some_iff.mp hl
      exact ⟨hkind, by simp [hspan]; omega⟩

/-- Lexemes `ls` that follow a motion `m` have moved tokens. -/
theorem Lexes.tokensAt_of_follows {ls : List Lexeme} {rest : List Char} (h : Lexes ls rest)
    {m : Motion} {offset offset' : Nat} {edits : List Edit}
    (hfollows : m.Follows offset offset' edits)
    (hedits : ∀ e ∈ edits.head?, offset + bytesOf ls ≤ e.span.start) :
    tokensAt offset' ls = (tokensAt offset ls).map (.move m) := by
  refine h.tokensAt_eq_map (fun p hp hlt => ?_) fun p hp hle => ?_
  · rw [hfollows.1 p hp]
    exact Edit.place_of_head fun e he => .inl (by have := hedits e he; omega)
  · rw [hfollows.2 p hp]
    refine Edit.place_of_head fun e he => ?_
    have := hedits e he
    simp only [and_true]
    omega

namespace Snippet

/-! ## Edits of pieces -/

/-- The edits that give an expression statement, `value` up to `stop`, its fate. -/
def Fate.edits (source : String) (value : Expr) (stop : Nat) : Fate → List Edit
  | .keep => []
  | .assign => value.plainRoot?.toList.map fun root =>
    .insertBefore value.span (textOn source root.span ++ " = ")
  | .drop => [.delete ⟨value.span.start, stop⟩]

variable (r : Revision) (source : String)

/-- The edits that a piece asks for in the revision `r`. -/
def Piece.edits : Piece → List Edit
  | .token _ => []
  | .statement value _ semicolon =>
    (r.fate value.span.start).edits source value semicolon.span.stop

/-- The edits that the pieces `ps` ask for. -/
def editsIn (ps : List Piece) : List Edit := ps.flatMap (Piece.edits r source)

/-- Whether a piece is taken away by `r`. -/
def Piece.isDropped : Piece → Bool
  | .token _ => false
  | .statement value _ _ => r.fate value.span.start = .drop

/-- The piece ends in a mark, so that anything may stand behind it: a `token` that is one, or a
statement. -/
def Piece.Closed : Piece → Prop
  | .token t => ∃ c, t.kind = .mark c
  | .statement _ _ _ => True

/-- The piece is what its tokens are read as (`Reads`). -/
def Piece.Read : Piece → Prop
  | .token _ => True
  | .statement value ts semicolon => Reads (.expr value) ts ∧ semicolon.isMark ';' = true

variable {r} {source}

@[simp] theorem editsIn_nil : editsIn r source [] = [] := rfl

@[simp] theorem editsIn_cons (p : Piece) (ps : List Piece) :
    editsIn r source (p :: ps) = p.edits r source ++ editsIn r source ps := rfl

/-- An edit `e` of a statement begins where it does. -/
theorem Fate.start_of_mem_edits {fate : Fate} {value : Expr} {stop : Nat} {e : Edit}
    (he : e ∈ fate.edits source value stop) : e.span.start = value.span.start := by
  cases fate with
  | keep => cases he
  | assign =>
    obtain ⟨root, -, rfl⟩ := List.mem_map.mp he
    rfl
  | drop =>
    rw [List.mem_singleton.mp he]
    rfl

/-- Only a statement that is taken away is cut out: any other edit `e` is an insertion. -/
theorem Fate.span_of_mem_edits {fate : Fate} (hfate : fate ≠ .drop) {value : Expr} {stop : Nat}
    {e : Edit} (he : e ∈ fate.edits source value stop) : e.span.stop = e.span.start := by
  cases fate with
  | keep => cases he
  | assign =>
    obtain ⟨root, -, rfl⟩ := List.mem_map.mp he
    rfl
  | drop => exact absurd rfl hfate

/-- An edit `e` of the pieces `ps` lies behind the place `offset` from which their tokens do. -/
theorem le_start_of_mem_editsIn {ps : List Piece} (hreads : ∀ p ∈ ps, p.Read) {offset stop : Nat}
    (hlaid : Laid offset (tokensOf ps) stop) {e : Edit} (he : e ∈ editsIn r source ps) :
    offset ≤ e.span.start := by
  obtain ⟨p, hp, he⟩ := List.mem_flatMap.mp he
  cases p with
  | token t => cases he
  | statement value ts semicolon =>
    obtain ⟨t, us, rfl, hstart⟩ := (hreads _ hp).1.exists_first
    rw [Fate.start_of_mem_edits he, hstart]
    refine (hlaid.mem (List.mem_flatMap.mpr ⟨_, hp, ?_⟩)).1
    exact List.mem_append_left _ List.mem_cons_self

/-! ## The result of a splice -/

/-- What `edits` make of the lexemes `ls`: the lexemes `ls'` of the new text, and its tokens
`ts'`. -/
structure Spliced (offset offset' : Nat) (ls : List Lexeme) (edits : List Edit)
    (ls' : List Lexeme) (ts' : List SnippetToken) : Prop where
  lexes : Lexes ls' []
  splice : Splice offset (textOf ls) edits (textOf ls')
  tokens : tokensAt offset' ls' = ts'

/-- Nothing is taken away in front of `back'`, so that the text begins as it did; or what stands in
front of it, `ls`, ends in a mark. -/
def Follow (ls back back' : List Lexeme) : Prop :=
  (textOf back').head? = (textOf back).head? ∨ ∃ l ∈ ls.getLast?, ∃ c, l.kind = .token (.mark c)

variable {offset offset' : Nat} {run back back' : List Lexeme} {edits : List Edit}
  {ts' : List SnippetToken}

theorem Follow.lexes (h : Follow run back back') (hlexes : Lexes (run ++ back) [])
    (hback : Lexes back' []) : Lexes (run ++ back') [] := by
  rw [lexes_append, List.append_nil] at hlexes ⊢
  refine ⟨?_, hback⟩
  rcases h with hhead | ⟨l, hl, c, hkind⟩
  · exact hlexes.1.congr hhead.symm
  · refine hlexes.1.replace fun m hm hfront => ?_
    obtain rfl := Option.mem_unique hm hl
    exact hfront.of_mark hkind _

/-- Lexemes `run` in front of all edits can be passed over. -/
theorem Spliced.append
    (h : Spliced (offset + bytesOf run) (offset' + bytesOf run) back edits back' ts')
    (hfollow : Follow run back back') (hlexes : Lexes (run ++ back) []) {m : Motion}
    (hfollows : m.Follows offset offset' edits)
    (hedits : ∀ e ∈ edits.head?, offset + bytesOf run ≤ e.span.start) :
    Spliced offset offset' (run ++ back) edits (run ++ back')
      ((tokensAt offset run).map (.move m) ++ ts') := by
  refine ⟨hfollow.lexes hlexes h.lexes, ?_, ?_⟩
  · rw [textOf_append, textOf_append]
    exact .append h.splice
  · rw [tokensAt_append, h.tokens,
      (lexes_append.mp hlexes).1.tokensAt_of_follows hfollows hedits]

/-- The lexemes `run` behind a `gap` are cut out by the edit `e`. -/
theorem Spliced.cut {gap : List Lexeme} {e : Edit} {c : Char} {body : List Char}
    (hstart : e.span.start = offset + bytesOf gap)
    (hstop : e.span.stop = e.span.start + bytesOf run) (hreplacement : e.replacement = "")
    (h : Spliced e.span.stop (offset' + bytesOf gap) back edits back' ts')
    (hlexes : Lexes (gap ++ (run ++ back)) []) (hgap : tokensAt offset gap = [])
    (hrun : textOf run = c :: body) (hc : c ≠ '\n') :
    Spliced offset offset' (gap ++ (run ++ back)) (e :: edits) (gap ++ back') ts' := by
  refine ⟨?_, ?_, ?_⟩
  · rw [lexes_append, List.append_nil] at hlexes ⊢
    rw [textOf_append, hrun] at hlexes
    exact ⟨hlexes.1.of_gap hc hgap _, h.lexes⟩
  · have hsplice := Splice.edit hstart hstop h.splice
    rw [hreplacement] at hsplice
    rw [textOf_append, textOf_append, textOf_append]
    exact hsplice
  · rw [tokensAt_append, tokensAt_eq_nil_iff.mpr (tokensAt_eq_nil_iff.mp hgap), h.tokens,
      List.nil_append]

/-- The lexemes of an equals sign between blanks, as in ` = `. -/
def assignment : List Lexeme := [⟨.blank, [' ']⟩, ⟨.token (.mark '='), ['=']⟩, ⟨.blank, [' ']⟩]

theorem lexes_assignment (rest : List Char) : Lexes assignment rest :=
  ⟨⟨.blank (by decide), trivial⟩, ⟨.mark (by decide), trivial⟩, ⟨.blank (by decide), trivial⟩,
    trivial⟩

/-- Lexemes `root` at the front of a run are put in before it, with an equals sign behind them. -/
theorem Spliced.insert {gap root rest behind' : List Lexeme} {e : Edit}
    (hspan : e.span = .point (offset + bytesOf gap))
    (hreplacement : e.replacement.toList = textOf root ++ [' ', '=', ' '])
    (h : Spliced (offset + bytesOf gap) (offset' + bytesOf gap + (bytesOf root + 3)) (root ++ rest)
      edits behind' ts')
    (hlexes : Lexes (gap ++ (root ++ rest)) []) (hgap : tokensAt offset gap = [])
    (hroot : ∃ l ∈ root.getLast?, ∃ kind, l.kind = .token kind) :
    Spliced offset offset' (gap ++ (root ++ rest)) (e :: edits)
      (gap ++ (root ++ (assignment ++ behind')))
      (tokensAt (offset' + bytesOf gap) root ++
        ⟨.mark '=', ⟨offset' + bytesOf gap + (bytesOf root + 3) - 2,
          offset' + bytesOf gap + (bytesOf root + 3) - 1⟩, "="⟩ :: ts') := by
  have hassignment : textOf assignment = [' ', '=', ' '] := rfl
  refine ⟨?_, ?_, ?_⟩
  · rw [lexes_append, List.append_nil, lexes_append, List.append_nil] at hlexes
    obtain ⟨hgap, hroot', -⟩ := hlexes
    refine lexes_append.mpr ⟨?_, lexes_append.mpr ⟨?_, lexes_append.mpr
      ⟨lexes_assignment _, h.lexes⟩⟩⟩
    · -- The text behind the gap begins as before.
      obtain ⟨l, hl, -⟩ := hroot
      rw [textOf_append] at hgap
      rw [List.append_nil, textOf_append]
      exact hgap.congr (hroot'.head?_append (List.ne_nil_of_mem (List.mem_of_getLast? hl)) _ _)
    · refine hroot'.replace fun m hm hfront => ?_
      obtain ⟨l, hl, kind, hkind⟩ := hroot
      obtain rfl := Option.mem_unique hm hl
      exact hfront.of_space hkind _
  · have hstop : e.span.stop = offset + bytesOf gap := by rw [hspan]; rfl
    have hsplice := @Splice.edit offset (textOf gap) [] (textOf (root ++ rest)) (textOf behind') e
      edits (by rw [hspan]; rfl) (by rw [hspan]; rfl) (by rw [hstop]; exact h.splice)
    rw [hreplacement] at hsplice
    simpa only [textOf_append, hassignment, List.append_assoc, List.nil_append] using hsplice
  · rw [tokensAt_append, tokensAt_append, tokensAt_append,
      tokensAt_eq_nil_iff.mpr (tokensAt_eq_nil_iff.mp hgap), List.nil_append]
    have hbytes : bytesOf assignment = 3 := rfl
    rw [hbytes, Nat.add_assoc _ (bytesOf root) 3, h.tokens]
    have hequals : tokensAt (offset' + bytesOf gap + bytesOf root) assignment =
        [⟨.mark '=', ⟨offset' + bytesOf gap + bytesOf root + 1,
          offset' + bytesOf gap + bytesOf root + 1 + 1⟩, "="⟩] := rfl
    have hstart : offset' + bytesOf gap + bytesOf root + 1 =
        offset' + bytesOf gap + (bytesOf root + 3) - 2 := by omega
    have hstop : offset' + bytesOf gap + (bytesOf root + 3) - 2 + 1 =
        offset' + bytesOf gap + (bytesOf root + 3) - 1 := by omega
    rw [hequals, hstart, hstop]
    rfl

/-- The text `middle` between two parts of a source. -/
theorem textOn_append {source : String} {front middle back : List Char} {span : Span}
    (hsource : source.toList = front ++ (middle ++ back))
    (hstart : span.start = Text.byteSize front)
    (hstop : span.stop = span.start + Text.byteSize middle) :
    textOn source span = String.ofList middle := by
  have hwhole : Text.splitAt? source.toList span.stop = some (front ++ middle, back) := by
    rw [hsource, ← List.append_assoc, hstop, hstart, ← Text.byteSize_append, Text.splitAt?_append]
  have hfront : Text.splitAt? (front ++ middle) span.start = some (front, middle) := by
    rw [hstart, Text.splitAt?_append]
  rw [textOn, Text.slice?, if_neg (by omega)]
  simp [hwhole, hfront]

/-! ## Piece by piece -/

variable {ls : List Lexeme} {ps : List Piece} {p : Piece}

/-- The lexemes `ls` that the edits of a revision `r` are made in. -/
structure Spliceable (r : Revision) (source : String) (offset offset' : Nat) (ls : List Lexeme)
    (ps : List Piece) : Prop where
  lexes : Lexes ls []
  tokens : tokensAt offset ls = tokensOf ps
  reads : ∀ p ∈ ps, p.Read
  /-- What is taken away, `q`, stands behind a mark. -/
  chain : ps.IsChain fun p q => q.isDropped r = true → p.Closed
  inSource : ∃ front, source.toList = front ++ textOf ls ∧ Text.byteSize front = offset
  follows : r.motion.Follows offset offset' (editsIn r source ps)

/-- The edits make lexemes `ls'` with the tokens of the revised pieces. The text begins as it did
unless what stands first is taken away. -/
def Succeeds (r : Revision) (source : String) (offset offset' : Nat) (ls : List Lexeme)
    (ps : List Piece) : Prop :=
  ∃ ls', Spliced offset offset' ls (editsIn r source ps) ls' (tokensOf (revisePieces r ps)) ∧
    ((textOf ls').head? = (textOf ls).head? ∨ ∃ p ∈ ps.head?, p.isDropped r = true)

/-- The lexemes `back` behind the first piece can be edited where the motion has come to follow the
edits of the pieces behind it (`hfollows`). -/
theorem Spliceable.tail (h : Spliceable r source offset offset' (run ++ back) (p :: ps))
    (htokens : tokensAt (offset + bytesOf run) back = tokensOf ps) {start : Nat}
    (hfollows : r.motion.Follows (offset + bytesOf run) start (editsIn r source ps)) :
    Spliceable r source (offset + bytesOf run) start back ps := by
  refine ⟨(lexes_append.mp h.lexes).2, htokens, fun p hp => h.reads p (List.mem_cons_of_mem _ hp),
    h.chain.tail, ?_, hfollows⟩
  obtain ⟨front, hsource, hfront⟩ := h.inSource
  exact ⟨front ++ textOf run, by simp [hsource], by simp [hfront, bytesOf]⟩

/-- An edit `e` of the pieces behind the first one, `p`, does not reach into it. -/
theorem Spliceable.le_start (h : Spliceable r source offset offset' (run ++ back) (p :: ps))
    (htokens : tokensAt (offset + bytesOf run) back = tokensOf ps) {e : Edit}
    (he : e ∈ editsIn r source ps) : offset + bytesOf run ≤ e.span.start := by
  have hlaid := (lexes_append.mp h.lexes).2.laid (offset + bytesOf run)
  rw [htokens] at hlaid
  exact le_start_of_mem_editsIn (fun p hp => h.reads p (List.mem_cons_of_mem _ hp)) hlaid he

/-- When the first piece `p` is passed over, what stands behind it is edited. -/
theorem Spliceable.exists_behind {gap : List Lexeme}
    (h : Spliceable r source offset offset' (gap ++ (run ++ back)) (p :: ps))
    (hback : tokensAt (offset + bytesOf gap + bytesOf run) back = tokensOf ps)
    (hlast : p.Closed → ∃ l ∈ run.getLast?, ∃ c, l.kind = .token (.mark c)) {start : Nat}
    (hfollows : r.motion.Follows (offset + bytesOf gap) start (editsIn r source ps))
    (ih : ∀ {offset offset' : Nat} {ls : List Lexeme}, Spliceable r source offset offset' ls ps →
      Succeeds r source offset offset' ls ps) :
    ∃ back', Spliced (offset + bytesOf gap) start (run ++ back) (editsIn r source ps)
      (run ++ back')
      ((tokensAt (offset + bytesOf gap) run).map (.move r.motion) ++
        tokensOf (revisePieces r ps)) := by
  have hlexes := (lexes_append.mp h.lexes).2
  rw [← List.append_assoc] at h
  rw [Nat.add_assoc, ← bytesOf_append] at hback
  have hstart : ∀ e ∈ (editsIn r source ps).head?,
      offset + bytesOf gap + bytesOf run ≤ e.span.start := fun e he => by
    rw [Nat.add_assoc, ← bytesOf_append]
    exact h.le_start hback (List.mem_of_mem_head? he)
  have hadd := hfollows.add hstart
  rw [Nat.add_assoc, ← bytesOf_append] at hadd
  obtain ⟨back', hspliced, hhead⟩ := ih (h.tail hback hadd)
  rw [bytesOf_append, ← Nat.add_assoc] at hspliced
  refine ⟨back', hspliced.append ?_ hlexes hfollows hstart⟩
  rcases hhead with hhead | ⟨q, hq, hdropped⟩
  · exact .inl hhead
  · cases ps with
    | nil => cases hq
    | cons q' ps =>
      obtain rfl : q' = q := by simpa using hq
      exact .inr (hlast ((List.isChain_cons_cons.mp h.chain).1 hdropped))

theorem Piece.tokens_ne_nil : ∀ p : Piece, p.tokens ≠ []
  | .token _ => by simp [Piece.tokens]
  | .statement _ _ _ => by simp [Piece.tokens]

/-- A piece `p` after which anything may stand ends in a mark. -/
theorem Piece.Closed.exists_mark (hclosed : p.Closed) (hread : p.Read) :
    ∃ t ∈ p.tokens.getLast?, ∃ c, t.kind = .mark c := by
  cases p with
  | token t => exact ⟨t, rfl, hclosed⟩
  | statement value ts semicolon =>
    refine ⟨semicolon, by simp [Piece.tokens], ';', ?_⟩
    simpa [SnippetToken.isMark] using hread.2

/-- A piece `p` that stays as it is. -/
theorem Spliceable.pass (h : Spliceable r source offset offset' ls (p :: ps))
    (hedits : p.edits r source = [])
    (hrevise : tokensOf (p.revise r) = p.tokens.map (.move r.motion))
    (ih : ∀ {offset offset' : Nat} {ls : List Lexeme}, Spliceable r source offset offset' ls ps →
      Succeeds r source offset offset' ls ps) :
    Succeeds r source offset offset' ls (p :: ps) := by
  obtain ⟨gap, run, back, rfl, hgap, hrun, hback, -, last, hlast, t, ht, hkind, -⟩ :=
    exists_run p.tokens_ne_nil h.tokens
  have hfollows := h.follows
  rw [editsIn_cons, hedits, List.nil_append] at hfollows
  rw [← List.append_assoc] at h ⊢
  have hlast' : (gap ++ run).getLast? = some last := by
    simp [List.getLast?_append, Option.mem_def.mp hlast]
  have hwhole : Spliceable r source offset offset' ([] ++ (gap ++ run ++ back)) (p :: ps) := h
  obtain ⟨back', hspliced⟩ := hwhole.exists_behind
    (by rwa [bytesOf_nil, Nat.add_zero, bytesOf_append, ← Nat.add_assoc])
    (fun hclosed => by
      obtain ⟨t', ht', c, hc⟩ := hclosed.exists_mark (h.reads p List.mem_cons_self)
      obtain rfl := Option.mem_unique ht ht'
      exact ⟨last, hlast', c, by rw [hkind, hc]⟩) hfollows ih
  rw [bytesOf_nil, Nat.add_zero, tokensAt_append, hgap, hrun, List.nil_append] at hspliced
  refine ⟨gap ++ run ++ back', ?_, .inl ?_⟩
  · rw [editsIn_cons, hedits, List.nil_append, revisePieces_cons, tokensOf_append, hrevise]
    exact hspliced
  · -- The run is not empty, so the text begins as it did.
    rw [textOf_append, textOf_append _ back]
    exact (lexes_append.mp h.lexes).1.head?_append
      (List.ne_nil_of_mem (List.mem_of_getLast? hlast')) _ _

/-- A statement `value` that is taken away. -/
theorem Spliceable.drop {value : Expr} {ts : List SnippetToken} {semicolon : SnippetToken}
    (h : Spliceable r source offset offset' ls (.statement value ts semicolon :: ps))
    (hfate : r.fate value.span.start = .drop)
    (ih : ∀ {offset offset' : Nat} {ls : List Lexeme}, Spliceable r source offset offset' ls ps →
      Succeeds r source offset offset' ls ps) :
    Succeeds r source offset offset' ls (.statement value ts semicolon :: ps) := by
  obtain ⟨gap, run, back, rfl, hgap, hrun, hback, ⟨first, hfirst, t, ht, htoken⟩, last, hlast, t',
    ht', hkind, hstop⟩ := exists_run (Piece.tokens_ne_nil _) h.tokens
  obtain ⟨t₀, us, rfl, hvalue⟩ := (h.reads _ List.mem_cons_self).1.exists_first
  obtain rfl : t₀ = t := by simpa [Piece.tokens] using ht
  obtain rfl : semicolon = t' := Option.some.inj (List.getLast?_concat.symm.trans ht')
  obtain ⟨hfirstKind, hspan, -⟩ := Lexeme.token?_eq_some_iff.mp htoken
  have hedits : (Piece.statement value (t₀ :: us) semicolon).edits r source =
      [.delete ⟨value.span.start, semicolon.span.stop⟩] := by
    simp [Piece.edits, Fate.edits, hfate]
  have hstart : value.span.start = offset + bytesOf gap := by rw [hvalue, hspan]
  have hfollows := h.follows
  rw [editsIn_cons, hedits, List.singleton_append] at hfollows
  -- The motion behind the statement is that of the edits behind it.
  have htail := hfollows.tail (by simp only [Edit.span]; omega) (by simp only [Edit.span]; omega)
  have hnew : offset' + (value.span.start - offset) + Text.byteSize "".toList =
      offset' + bytesOf gap := by
    have : Text.byteSize "".toList = 0 := rfl
    omega
  simp only [Edit.span, Edit.replacement, hnew, hstop] at htail
  rw [← List.append_assoc] at h
  rw [Nat.add_assoc, ← bytesOf_append] at hback htail
  obtain ⟨back', hspliced, -⟩ := ih (h.tail hback htail)
  -- The text that is cut out begins with a token.
  have hformed := (lexes_append.mp (lexes_append.mp h.lexes).1).2
  obtain ⟨c, body, hrunText, hc⟩ : ∃ c body, textOf run = c :: body ∧ c ≠ '\n' := by
    cases run with
    | nil => cases hfirst
    | cons l run =>
      obtain rfl : l = first := by simpa using hfirst
      obtain ⟨c, body, hchars⟩ := hformed.1.1.exists_cons
      exact ⟨c, body ++ textOf run, by simp [hchars], hformed.1.1.head_ne hfirstKind hchars⟩
  refine ⟨gap ++ back', ?_, .inr ⟨_, rfl, by simp [Piece.isDropped, hfate]⟩⟩
  rw [editsIn_cons, hedits, List.singleton_append, revisePieces_cons, Piece.revise, if_pos hfate,
    List.nil_append]
  refine Spliced.cut hstart ?_ rfl ?_ ?_ hgap hrunText hc
  · simp only [Edit.span]
    omega
  · simp only [Edit.span, hstop]
    rw [Nat.add_assoc, ← bytesOf_append]
    exact hspliced
  · rw [← List.append_assoc]
    exact h.lexes

/-- The variable `root` at the start of a chain stands where its tokens do. -/
theorem exists_variable {value root : Expr} {ts us : List SnippetToken}
    (hread : Reads (.expr value) ts) (hroot : value.plainRoot? = some root)
    (htokens : tokensAt offset ls = ts ++ us) :
    ∃ gap name rest, ls = gap ++ (name ++ rest) ∧ tokensAt offset gap = [] ∧
      tokensAt (offset + bytesOf gap) name = ts.take root.width ∧
      tokensAt (offset + bytesOf gap + bytesOf name) rest = ts.drop root.width ++ us ∧
      (∃ l ∈ name.getLast?, ∃ kind, l.kind = .token kind) ∧
      root.span = ⟨offset + bytesOf gap, offset + bytesOf gap + bytesOf name⟩ := by
  obtain ⟨-, hplain⟩ := Expr.plainRoot?_eq_some_iff.mp hroot
  obtain ⟨front, behind, rfl, hreads, hwidth⟩ :=
    (hread.chain_of_variable hroot).exists_variable hroot
  obtain ⟨-, front', last, hlast, hstop⟩ := hreads.length_eq_width hplain
  obtain ⟨first, us', hfirst, hstart⟩ := hreads.exists_first
  rw [List.append_assoc] at htokens
  obtain ⟨gap, name, rest, rfl, hgap, hname, hrest, ⟨l, -, t, ht, hl⟩, l', hl', t', ht', hkind,
    hend⟩ := exists_run (by simp [hfirst]) htokens
  obtain rfl : first = t := by simpa [hfirst] using ht
  obtain rfl : last = t' := by simpa [hlast] using ht'
  obtain ⟨-, hspan, -⟩ := Lexeme.token?_eq_some_iff.mp hl
  refine ⟨gap, name, rest, rfl, hgap, ?_, ?_, ⟨l', hl', _, hkind⟩, ?_⟩
  · rw [hname, ← hwidth, List.take_left]
  · rw [hrest, ← hwidth, List.drop_left]
  · rw [← hend, ← hstop]
    have hfirst : root.span.start = offset + bytesOf gap := by rw [hstart, hspan]
    rw [← hfirst]

/-- The source says what a `run` of the lexemes does. -/
theorem Spliceable.textOn_run {gap : List Lexeme}
    (h : Spliceable r source offset offset' (gap ++ (run ++ back)) ps) :
    textOn source ⟨offset + bytesOf gap, offset + bytesOf gap + bytesOf run⟩ =
      String.ofList (textOf run) := by
  obtain ⟨front, hsource, hfront⟩ := h.inSource
  have hparts : source.toList = (front ++ textOf gap) ++ (textOf run ++ textOf back) := by
    simp [hsource]
  refine textOn_append hparts ?_ ?_ <;> simp [hfront, bytesOf]

/-- The copy of a variable `root` has the tokens of the variable, an equals sign between blanks in
front of where the variable goes (`hplace`). -/
theorem tokensAt_copy {root : Expr} {name : List Lexeme} {rest : List Char}
    (hlexes : Lexes name rest) (hspan : root.span = ⟨offset, offset + bytesOf name⟩)
    (hplace : r.motion.start root.span.start = offset' + (bytesOf name + 3)) :
    tokensAt offset' name = (tokensAt offset name).map (.move (r.copy root)) := by
  have hstart : root.span.start = offset := by rw [hspan]
  have hlength : root.span.length = bytesOf name := by simp [Span.length, hspan]
  refine hlexes.tokensAt_eq_map (fun p _ _ => ?_) fun p _ _ => ?_ <;>
    simp only [Revision.copy, hplace, hlength] <;> omega

section

variable {value root : Expr} {ts : List SnippetToken} {semicolon : SnippetToken}

/-- The edit that assigns the result of `value` to `root`. -/
theorem Piece.edits_of_assign (hfate : r.fate value.span.start = .assign)
    (hroot : value.plainRoot? = some root) :
    (Piece.statement value ts semicolon).edits r source =
      [.insertBefore value.span (textOn source root.span ++ " = ")] := by
  simp [Piece.edits, Fate.edits, hfate, hroot]

/-- The piece of which the result is assigned to `root`. -/
theorem Piece.revise_of_assign (hfate : r.fate value.span.start = .assign)
    (hroot : value.plainRoot? = some root) :
    (Piece.statement value ts semicolon).revise r =
      [.statement (value.revise r)
        ((ts.take root.width).map (.move (r.copy root)) ++ r.equals root ::
          ts.map (.move r.motion)) (semicolon.move r.motion)] := by
  simp [Piece.revise, Revision.tokens, Revision.assigned?, hfate, hroot]

/-- A statement `value` of which the result is assigned to the variable `root` at its start. -/
theorem Spliceable.assign
    (h : Spliceable r source offset offset' ls (.statement value ts semicolon :: ps))
    (hfate : r.fate value.span.start = .assign) (hroot : value.plainRoot? = some root)
    (ih : ∀ {offset offset' : Nat} {ls : List Lexeme}, Spliceable r source offset offset' ls ps →
      Succeeds r source offset offset' ls ps) :
    Succeeds r source offset offset' ls (.statement value ts semicolon :: ps) := by
  obtain ⟨hread, hsemicolon⟩ := h.reads _ List.mem_cons_self
  have htokens := h.tokens
  rw [tokensOf_cons, Piece.tokens, List.append_assoc] at htokens
  obtain ⟨gap, name, rest, rfl, hgap, hname, hrest, hnameLast, hrootSpan⟩ :=
    exists_variable hread hroot htokens
  rw [← List.append_assoc] at hrest
  -- The lexemes are those of the variable, of the rest of the statement, and of what is behind it.
  obtain ⟨inner, run, back, rfl, hinner, hrun, hback, -, last, hlast, t, ht, hkind, -⟩ :=
    exists_run (by simp) hrest
  obtain rfl : semicolon = t := Option.some.inj (List.getLast?_concat.symm.trans ht)
  have hstart : value.span.start = offset + bytesOf gap := by
    rw [← Expr.start_root? (Expr.plainRoot?_eq_some_iff.mp hroot).1, hrootSpan]
  have hedits : (Piece.statement value ts semicolon).edits r source =
      [.insertBefore value.span (String.ofList (textOf name) ++ " = ")] := by
    have htext : textOn source root.span = String.ofList (textOf name) := hrootSpan ▸ h.textOn_run
    rw [Piece.edits_of_assign hfate hroot, htext]
  have hreplacement : (String.ofList (textOf name) ++ " = ").toList =
      textOf name ++ [' ', '=', ' '] := by
    rw [String.toList_append, String.toList_ofList]
    rfl
  have hfollows := h.follows
  rw [editsIn_cons, hedits, List.singleton_append] at hfollows
  -- The motion from the statement on is that of the edits behind it.
  have htail := hfollows.tail (by simp only [Edit.span, Span.point]; omega)
    (by simp only [Edit.span, Span.point]; omega)
  have hsize : Text.byteSize (String.ofList (textOf name) ++ " = ").toList = bytesOf name + 3 := by
    rw [hreplacement, Text.byteSize_append]
    rfl
  simp only [Edit.span, Edit.replacement, Span.point, hstart, hsize, Nat.add_sub_cancel_left]
    at htail
  have hrun' : tokensAt (offset + bytesOf gap) (name ++ (inner ++ run)) = ts ++ [semicolon] := by
    rw [tokensAt_append, tokensAt_append, hname, hinner, hrun, List.nil_append,
      ← List.append_assoc, List.take_append_drop]
  have hls : gap ++ (name ++ (inner ++ (run ++ back))) =
      gap ++ ((name ++ (inner ++ run)) ++ back) := by simp
  rw [hls] at h ⊢
  obtain ⟨back', hpassed⟩ := h.exists_behind
    (by simpa only [bytesOf_append, ← Nat.add_assoc] using hback)
    (fun _ => ⟨last, by simp [List.getLast?_append, Option.mem_def.mp hlast], ';',
      by simpa [hkind, SnippetToken.isMark] using hsemicolon⟩) htail ih
  rw [hrun'] at hpassed
  have hinserted := Spliced.insert (e := .insertBefore value.span _) (by rw [← hstart]; rfl)
    hreplacement (by simpa using hpassed) (by simpa using h.lexes) hgap hnameLast
  have hnameLexes := (lexes_append.mp (lexes_append.mp (hls ▸ h.lexes)).2).1
  have hnameNe : name ≠ [] := by
    obtain ⟨l, hl, -⟩ := hnameLast
    exact List.ne_nil_of_mem (List.mem_of_getLast? hl)
  have hnamePos := hnameLexes.bytesOf_pos hnameNe
  -- The variable goes behind its copy: the first edit behind it begins no earlier than the end of
  -- the statement.
  have hplace : r.motion.start root.span.start = offset' + bytesOf gap + (bytesOf name + 3) := by
    rw [hrootSpan]
    refine htail.start_eq fun e he => ?_
    rw [← List.append_assoc] at h
    have hle := h.le_start (by simpa only [bytesOf_append, ← Nat.add_assoc] using hback)
      (List.mem_of_mem_head? he)
    simp only [bytesOf_append] at hle
    omega
  refine ⟨gap ++ (name ++ (assignment ++ (name ++ (inner ++ run) ++ back'))), ?_, .inl ?_⟩
  · rw [editsIn_cons, hedits, List.singleton_append, revisePieces_cons,
      Piece.revise_of_assign hfate hroot]
    rw [tokensAt_copy hnameLexes hrootSpan hplace, hname, ← hplace] at hinserted
    simpa [Piece.tokens, Revision.equals] using hinserted
  · have hlexes : Lexes (gap ++ name ++ (inner ++ run ++ back)) [] := by simpa using h.lexes
    have hhead := (lexes_append.mp hlexes).1.head?_append
      (List.append_ne_nil_of_right_ne_nil gap hnameNe)
      (textOf (assignment ++ (name ++ (inner ++ run) ++ back'))) (textOf (inner ++ run ++ back))
    simpa using hhead

end

/-- **The text of a revised snippet.** The edits of a revision `r` are made, and the tokens of the
result are those of the revised pieces. -/
theorem Spliceable.succeeds (h : Spliceable r source offset offset' ls ps) :
    Succeeds r source offset offset' ls ps := by
  induction ps generalizing offset offset' ls with
  | nil =>
    exact ⟨ls, ⟨h.lexes, .rest _ _, tokensAt_eq_nil_iff.mpr (tokensAt_eq_nil_iff.mp h.tokens)⟩,
      .inl rfl⟩
  | cons p ps ih =>
    cases p with
    | token t => exact h.pass rfl rfl ih
    | statement value ts semicolon =>
      cases hfate : r.fate value.span.start with
      | drop => exact h.drop hfate ih
      | keep =>
        refine h.pass ?_ ?_ ih
        · simp [Piece.edits, Fate.edits, hfate]
        · simp [Piece.revise, Piece.tokens, Revision.tokens, Revision.assigned?, hfate]
      | assign =>
        cases hroot : value.plainRoot? with
        | some root => exact h.assign hfate hroot ih
        | none =>
          refine h.pass ?_ ?_ ih
          · simp [Piece.edits, Fate.edits, hfate, hroot]
          · simp [Piece.revise, Piece.tokens, Revision.tokens, Revision.assigned?, hfate, hroot]

/-! ## Passages -/

section

variable {isType : String → Bool} {passage : Passage}

/-- The pieces `ps` of a passage are what their tokens are read as. -/
theorem Forms.read (h : Forms isType passage ps) : ∀ p ∈ ps, p.Read := by
  have htokens : ∀ ts : List SnippetToken, ∀ p ∈ ts.map Piece.token, p.Read := fun ts p hp => by
    obtain ⟨t, -, rfl⟩ := List.mem_map.mp hp
    trivial
  induction h with
  | suppressed _ _ _ _ _ _ ih | branch _ _ _ _ _ ih =>
    exact List.forall_mem_append.mpr ⟨htokens _, ih⟩
  | @block opening closing _ _ _ _ _ ih =>
    exact List.forall_mem_append.mpr ⟨List.forall_mem_cons.mpr ⟨trivial, ih⟩, htokens [closing]⟩
  | @leave word semicolon _ _ => exact htokens [word, semicolon]
  | branchElse _ _ _ _ _ _ _ _ ih ihno =>
    exact List.forall_mem_append.mpr ⟨List.forall_mem_append.mpr ⟨htokens _, ih⟩,
      List.forall_mem_cons.mpr ⟨trivial, ihno⟩⟩
  | ret | declare | declareValue => exact htokens _
  | evaluate h _ _ hs => exact List.forall_mem_singleton.mpr ⟨h, hs⟩
  | nil => simp
  | cons _ _ _ ih ihrest => exact List.forall_mem_append.mpr ⟨ih, ihrest⟩

/-- A statement `q` that is taken away may stand behind the piece `p`. -/
abbrev Allows (r : Revision) (p q : Piece) : Prop := q.isDropped r = true → p.Closed

/-- What is taken away from `ps` stands behind a mark, and may stand behind the pieces. -/
structure Guarded (r : Revision) (ps : List Piece) : Prop where
  chain : ps.IsChain (Allows r)
  last : ∀ p ∈ ps.getLast?, p.Closed

/-- The pieces `ps` do not begin with what is taken away. -/
structure Steady (r : Revision) (ps : List Piece) : Prop extends Guarded r ps where
  ne : ps ≠ []
  first : ∀ p ∈ ps.head?, p.isDropped r = false

theorem Guarded.append {qs : List Piece} (hps : Guarded r ps) (hqs : Guarded r qs) :
    Guarded r (ps ++ qs) := by
  refine ⟨List.isChain_append.mpr ⟨hps.chain, hqs.chain, fun p hp _ _ _ => hps.last p hp⟩,
    fun p hp => ?_⟩
  rw [List.getLast?_append, Option.mem_def, Option.or_eq_some_iff] at hp
  rcases hp with hp | ⟨-, hp⟩
  · exact hqs.last p hp
  · exact hps.last p hp

theorem Steady.append {qs : List Piece} (hps : Steady r ps) (hqs : Steady r qs) :
    Steady r (ps ++ qs) := by
  refine ⟨hps.toGuarded.append hqs.toGuarded, List.append_ne_nil_of_left_ne_nil hps.ne qs,
    fun p hp => hps.first p ?_⟩
  rwa [List.head?_append_of_ne_nil _ hps.ne] at hp

/-- A token `t` in front of an item. -/
theorem Steady.cons (t : SnippetToken) (h : Steady r ps) : Steady r (.token t :: ps) := by
  refine ⟨⟨?_, fun p hp => h.last p ?_⟩, List.cons_ne_nil _ _, by simp [Piece.isDropped]⟩
  · refine List.isChain_cons.mpr ⟨fun q hq hdropped => ?_, h.chain⟩
    rw [h.first q hq] at hdropped
    cases hdropped
  · rwa [List.getLast?_cons_of_ne_nil h.ne] at hp

theorem Steady.tokens (ts : List SnippetToken) (h : Steady r ps) :
    Steady r (ts.map .token ++ ps) := by
  induction ts with
  | nil => exact h
  | cons t ts ih => exact ih.cons t

/-- A token `t` that is a mark. -/
theorem steady_mark {t : SnippetToken} {c : Char} (ht : t.isMark c = true) :
    Steady r [.token t] := by
  have hclosed : (Piece.token t).Closed := ⟨c, by simpa [SnippetToken.isMark] using ht⟩
  exact ⟨⟨.singleton _, by simpa using hclosed⟩, List.cons_ne_nil _ _, by simp [Piece.isDropped]⟩

/-- Tokens `ts` up to a mark `t`. -/
theorem steady_tokens {ts : List SnippetToken} {t : SnippetToken} {c : Char}
    (ht : t.isMark c = true) : Steady r ((ts ++ [t]).map .token) := by
  rw [List.map_append]
  exact (steady_mark ht).tokens ts

/-- What is taken away from a passage stands behind a mark, and an item that `Stays` does not begin
with it. -/
theorem Forms.guarded (h : Forms isType passage ps) (hstays : passage.Stays r) :
    match passage with
    | .item _ => Steady r ps
    | .items _ => Guarded r ps := by
  induction h with
  | suppressed _ _ _ _ _ _ ih | branch _ _ _ _ _ ih => exact (ih hstays).tokens _
  | block ho _ hc ih =>
    have hclosing := steady_mark (r := r) hc
    have hopening := steady_mark (r := r) ho
    have hitems := (ih hstays).append hclosing.toGuarded
    exact ⟨hopening.toGuarded.append hitems, List.cons_ne_nil _ _, hopening.first⟩
  | @leave word _ _ hs => exact (steady_mark hs).cons word
  | ret _ _ hs | declareValue _ _ _ _ _ _ hs => exact steady_tokens hs
  | branchElse _ _ _ _ _ _ _ _ ih ihno =>
    exact ((ih hstays.1).tokens _).append ((ihno hstays.2).cons _)
  | @declare type place _ _ _ _ _ hs => exact ((steady_mark hs).cons place).cons type
  | @evaluate value =>
    have hkept : r.fate value.span.start ≠ .drop := hstays
    exact ⟨⟨.singleton _, by simp [Piece.Closed]⟩, List.cons_ne_nil _ _,
      by simpa [Piece.isDropped] using hkept⟩
  | nil => exact ⟨.nil, by simp⟩
  | @cons item items ps qs h hopen hrest ih ihrest =>
    obtain ⟨hitem, hitems⟩ := hstays
    refine Guarded.append ?_ (ihrest hitems)
    rcases hitem with hdropped | hstay
    · cases h with
      | evaluate => exact ⟨.singleton _, by simp [Piece.Closed]⟩
      | _ => cases hdropped
    · exact (ih hstay).toGuarded

end

end Snippet

end TreeLint
