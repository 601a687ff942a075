import TreeLint.Proofs.Snippet.Findings

/-!
# Snippets in other places

Nothing in a snippet depends on where it stands but the spans. Moving the tokens of an expression
moves the expression, its outline and what is found in it.

- `Expr.move`, `Outline.move`, `Finding.move`: the same in other places.
- `Reads.move`: moved tokens are read as the moved expression.
- `finding?_move`: what is found in a moved expression.
- `Expr.plainRoot?`: the plain name at the start of a chain, with `Reads.exists_variable`: the tokens
  of it are those in front.
-/

namespace TreeLint

namespace Snippet

mutual

/-- The expression where `m` moves it. -/
def Expr.move (m : Motion) : Expr → Expr
  | .literal kind span => .literal kind (span.move m)
  | .self span => .self (span.move m)
  | .name word span => .name word (span.move m)
  | .paren inner span => .paren (inner.move m) (span.move m)
  | .create type arguments span => .create type (Expr.moveAll m arguments) (span.move m)
  | .callOwn method place arguments stop =>
    .callOwn method (place.move m) (Expr.moveAll m arguments) (m.stop stop)
  | .select receiver member stop => .select (receiver.move m) member (m.stop stop)
  | .callOn receiver method nameStop arguments stop =>
    .callOn (receiver.move m) method (m.stop nameStop) (Expr.moveAll m arguments) (m.stop stop)
  | .assign target value => .assign (target.move m) (value.move m)

/-- The expressions where `m` moves them. -/
def Expr.moveAll (m : Motion) : List Expr → List Expr
  | [] => []
  | e :: es => e.move m :: Expr.moveAll m es

end

mutual

/-- The outline where `m` moves it. -/
def Outline.move (m : Motion) : Outline → Outline
  | .node label children =>
    .node { label with span := label.span.move m } (Outline.moveAll m children)

/-- The outlines where `m` moves them. -/
def Outline.moveAll (m : Motion) : List Outline → List Outline
  | [] => []
  | o :: os => o.move m :: Outline.moveAll m os

end

/-- The finding `f` where `m` moves it. -/
def Finding.move (m : Motion) (f : Finding) : Finding :=
  { f with call := f.call.move m, statement := f.statement.move m }

variable {m : Motion} {scope : Scope}

@[simp] theorem Expr.span_move (e : Expr) : (e.move m).span = e.span.move m := by
  induction e using Expr.span.induct with
  | _ => simp_all [Expr.move, Expr.span]

@[simp] theorem Expr.type?_move (e : Expr) : (e.move m).type? scope = e.type? scope := by
  induction e using Expr.type?.induct with
  | _ => simp_all [Expr.move, Expr.type?]

mutual

@[simp] theorem Expr.outline_move : ∀ e : Expr,
    (e.move m).outline scope = (e.outline scope).move m
  | .literal kind span => by
    cases kind <;> simp [Expr.move, Expr.outline, Outline.value, Outline.move, Outline.moveAll]
  | .self _ | .name _ _ => by
    simp [Expr.move, Expr.outline, Outline.reference, Outline.move, Outline.moveAll]
  | .paren inner _ => by
    simp [Expr.move, Expr.outline, Outline.value, Outline.move, Outline.moveAll, inner.outline_move]
  | .create _ arguments _ => by
    simp [Expr.move, Expr.outline, Outline.value, Outline.move, Expr.outlines_move arguments]
  | .callOwn _ _ arguments _ => by
    simp [Expr.move, Expr.outline, Outline.value, Outline.reference, Outline.move, Outline.moveAll,
      Expr.outlines_move arguments]
  | .select receiver _ _ => by
    simp [Expr.move, Expr.outline, Outline.reference, Outline.move, Outline.moveAll,
      receiver.outline_move]
  | .callOn receiver _ _ arguments _ => by
    simp [Expr.move, Expr.outline, Outline.value, Outline.reference, Outline.move, Outline.moveAll,
      receiver.outline_move, Expr.outlines_move arguments]
  | .assign target value => by
    simp [Expr.move, Expr.outline, Outline.value, Outline.move, Outline.moveAll,
      target.outline_move, value.outline_move]

theorem Expr.outlines_move : ∀ es : List Expr,
    Expr.outlines scope (Expr.moveAll m es) = Outline.moveAll m (Expr.outlines scope es)
  | [] => rfl
  | e :: es => by
    simp [Expr.moveAll, Expr.outlines, Outline.moveAll, e.outline_move, Expr.outlines_move es]

end

/-! ## Tokens -/

section

variable {t : SnippetToken}

@[simp] theorem SnippetToken.kind_move : (t.move m).kind = t.kind := rfl

@[simp] theorem SnippetToken.text_move : (t.move m).text = t.text := rfl

@[simp] theorem SnippetToken.span_move : (t.move m).span = t.span.move m := rfl

@[simp] theorem SnippetToken.isMark_move (c : Char) : (t.move m).isMark c = t.isMark c := rfl

@[simp] theorem SnippetToken.isName_move : (t.move m).isName = t.isName := rfl

@[simp] theorem SnippetToken.isKeyword_move (word : String) :
    (t.move m).isKeyword word = t.isKeyword word := rfl

@[simp] theorem literalKind?_move : literalKind? (t.move m) = literalKind? t := rfl

end

/-- The phrase where `m` moves it. -/
def Phrase.move (m : Motion) : Phrase → Phrase
  | .expr e => .expr (e.move m)
  | .chain e => .chain (e.move m)
  | .arguments es stop => .arguments (Expr.moveAll m es) (m.stop stop)
  | .moreArguments es stop => .moreArguments (Expr.moveAll m es) (m.stop stop)

/-- Moved tokens `ts` are read as what was read, `phrase`, moved. -/
theorem Reads.move (m : Motion) {phrase : Phrase} {ts : List SnippetToken} (h : Reads phrase ts) :
    Reads (phrase.move m) (ts.map (.move m)) := by
  induction h with
  | @literal t kind h => exact @Reads.literal (t.move m) kind h
  | @self t h => exact @Reads.self (t.move m) h
  | @name t h hfree => exact @Reads.name (t.move m) h hfree
  | @paren inner opening closing ts ho h hc ih =>
    rw [List.cons_append, List.map_cons, List.map_append]
    exact @Reads.paren _ (opening.move m) (closing.move m) _ ho ih hc
  | @create word type es stop ts hw ht h ih =>
    exact @Reads.create (word.move m) (type.move m) _ _ _ hw ht ih
  | @callOwn t es stop ts ht hfree h ih => exact @Reads.callOwn (t.move m) _ _ _ ht hfree ih
  | @select receiver dot member ts h hd hm ih =>
    rw [List.map_append]
    exact @Reads.select _ (dot.move m) (member.move m) _ ih hd hm
  | @callOn receiver dot member es stop ts us h hd hm hargs ih ihargs =>
    rw [List.map_append]
    exact @Reads.callOn _ (dot.move m) (member.move m) _ _ _ _ ih hd hm ihargs
  | plain h ih => exact .plain ih
  | @assign target value equals ts us h he hvalue ih ihvalue =>
    rw [List.map_append]
    exact @Reads.assign _ _ (equals.move m) _ _ ih he ihvalue
  | @noArguments opening closing ho hc =>
    exact @Reads.noArguments (opening.move m) (closing.move m) ho hc
  | @someArguments opening e es stop ts us ho h hmore ih ihmore =>
    rw [List.cons_append, List.map_cons, List.map_append]
    exact @Reads.someArguments (opening.move m) _ _ _ _ _ ho ih ihmore
  | @noMore closing hc => exact @Reads.noMore (closing.move m) hc
  | @more comma e es stop ts us hc h hmore ih ihmore =>
    rw [List.cons_append, List.map_cons, List.map_append]
    exact @Reads.more (comma.move m) _ _ _ _ _ hc ih ihmore

/-! ## Findings -/

@[simp] theorem Expr.isCall_move (e : Expr) : (e.move m).isCall = e.isCall := by
  cases e <;> rfl

@[simp] theorem Expr.isPlain_move : ∀ e : Expr, (e.move m).isPlain = e.isPlain
  | .select receiver _ _ => by simp [Expr.move, Expr.isPlain, receiver.isPlain_move]
  | .literal _ _ | .self _ | .name _ _ | .paren _ _ | .create _ _ _ | .callOwn _ _ _ _
  | .callOn _ _ _ _ _ | .assign _ _ => rfl

@[simp] theorem Expr.root?_move : ∀ e : Expr, (e.move m).root? = e.root?.map (Expr.move m)
  | .callOn receiver _ _ _ _ => by
    simp only [Expr.move, Expr.root?, Expr.isCall_move, receiver.root?_move]
    cases receiver.isCall <;> rfl
  | .literal _ _ | .self _ | .name _ _ | .paren _ _ | .create _ _ _ | .callOwn _ _ _ _
  | .select _ _ _ | .assign _ _ => rfl

@[simp] theorem Expr.callee?_move (e : Expr) : (e.move m).callee? scope = e.callee? scope := by
  cases e <;> simp [Expr.move, Expr.callee?]

variable {settings : DiscardedResult}

@[simp] theorem Expr.flag?_move (e : Expr) :
    (e.move m).flag? settings scope = e.flag? settings scope := by
  simp [Expr.flag?]

theorem Outline.label_move (o : Outline) :
    (o.move m).label = { o.label with span := o.label.span.move m } := by
  obtain ⟨label, children⟩ := o
  rfl

/-- A moved name `root` holds what it held when it is written the same way (`htext`). -/
theorem Expr.holds_move {source source' : String} {root : Expr} (returned : TypeId)
    (htext : textOn source' (root.span.move m) = textOn source root.span) :
    (root.move m).holds settings scope source' returned =
      root.holds settings scope source returned := by
  simp [Expr.holds, htext, Outline.label_move]

/-- What is found in a moved expression is what was found in `e`, moved, when the start of its chain
is written the same way (`htext`). -/
theorem Expr.finding?_move {source source' : String} {e : Expr} {stop : Nat}
    (htext : ∀ root, e.root? = some root →
      textOn source' (root.span.move m) = textOn source root.span) :
    (e.move m).finding? settings scope source' (m.stop stop) =
      (e.finding? settings scope source stop).map (Finding.move m) := by
  simp only [Expr.finding?, Expr.flag?_move, Expr.root?_move, Option.map_map]
  congr 1
  funext returned
  simp only [Function.comp_apply, Finding.move, Expr.span_move, Span.start_move, Span.move_mk,
    Finding.mk.injEq, true_and]
  cases hroot : e.root? with
  | none => rfl
  | some root =>
    simp only [Option.map_some, Option.filter_some, Expr.holds_move returned (htext root hroot)]
    split <;> simp [htext root hroot]

/-! ## The name at the start of a chain -/

/-- The plain name at the start of the chain of calls `e`. -/
def Expr.plainRoot? (e : Expr) : Option Expr := e.root?.filter Expr.isPlain

theorem Expr.plainRoot?_eq_some_iff {e root : Expr} :
    e.plainRoot? = some root ↔ e.root? = some root ∧ root.isPlain = true :=
  Option.filter_eq_some_iff

/-- A chain begins where what stands at its start, `root`, does. -/
theorem Expr.start_root? : ∀ {e root : Expr}, e.root? = some root → root.span.start = e.span.start
  | .callOn receiver _ _ _ _, root, h => by
    rw [Expr.root?] at h
    cases hcall : receiver.isCall with
    | true =>
      rw [hcall, if_pos rfl] at h
      have hstart : root.span.start = receiver.span.start := Expr.start_root? h
      exact hstart
    | false =>
      rw [hcall, if_neg (by decide)] at h
      cases h
      rfl
  | .literal _ _, _, h | .self _, _, h | .name _ _, _, h | .paren _ _, _, h | .create _ _ _, _, h
  | .callOwn _ _ _ _, _, h | .select _ _ _, _, h | .assign _ _, _, h => by cases h

/-- Number of tokens of a plain name: each member selected adds the dot and a name. -/
def Expr.width : Expr → Nat
  | .select receiver _ _ => receiver.width + 2
  | _ => 1

theorem Reads.length_eq_width {e : Expr} {ts : List SnippetToken} (h : Reads (.chain e) ts)
    (hplain : e.isPlain = true) :
    ts.length = e.width ∧ ∃ front last, ts = front ++ [last] ∧ e.span.stop = last.span.stop := by
  generalize hphrase : Phrase.chain e = phrase at h
  induction h generalizing e with
  | @self t h =>
    cases hphrase
    exact ⟨rfl, [], t, rfl, rfl⟩
  | @name t h hfree =>
    cases hphrase
    exact ⟨rfl, [], t, rfl, rfl⟩
  | @select receiver dot member ts h hd hm ih =>
    cases hphrase
    have hreceiver : receiver.isPlain = true := hplain
    refine ⟨?_, ts ++ [dot], member, by simp, rfl⟩
    simp [(ih hreceiver rfl).1, Expr.width]
  | _ => cases hphrase <;> simp [Expr.isPlain] at hplain

/-- A chain of calls `e` that starts at a plain name `root` has the tokens of it in front. -/
theorem Reads.exists_variable {e root : Expr} {ts : List SnippetToken} (h : Reads (.chain e) ts)
    (hroot : e.plainRoot? = some root) :
    ∃ front back, ts = front ++ back ∧ Reads (.chain root) front ∧ front.length = root.width := by
  generalize hphrase : Phrase.chain e = phrase at h
  induction h generalizing e with
  | @callOn receiver dot member es stop ts us h hd hm hargs ih ihargs =>
    cases hphrase
    rw [Expr.plainRoot?, Expr.root?] at hroot
    cases hcall : receiver.isCall with
    | true =>
      rw [hcall, if_pos rfl] at hroot
      obtain ⟨front, back, rfl, hreads, hlength⟩ := ih hroot rfl
      exact ⟨front, back ++ dot :: member :: us, by simp, hreads, hlength⟩
    | false =>
      rw [hcall, if_neg (by decide)] at hroot
      obtain ⟨hplain, rfl⟩ : receiver.isPlain = true ∧ receiver = root := by
        simpa [Option.filter_some] using hroot
      exact ⟨ts, dot :: member :: us, rfl, h, (h.length_eq_width hplain).1⟩
  | _ => cases hphrase <;> simp [Expr.plainRoot?, Expr.root?] at hroot

end Snippet

end TreeLint
