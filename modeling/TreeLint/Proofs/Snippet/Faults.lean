import TreeLint.Snippet.Elaborate

/-!
# Errors of readers

Cutting a text into tokens and reading them fail with errors of their own. That nodes make no tree
is found behind them, if at all.

- `Faultless`: a result is not that fault. `Faultless.bind`: reading on keeps this.
- `faultless_ofText`, `faultless_ofTokens`: the tokens of a text, and the items that they make.
-/

namespace TreeLint.Snippet

/-- The `result` is no fault of a tree: not `badTree`. -/
def Faultless {α : Type} (result : Except SnippetError α) : Prop :=
  ∀ e, result ≠ .error (.badTree e)

section

variable {α β : Type} {isType : String → Bool} {tokens : List SnippetToken}

theorem faultless_ok (a : α) : Faultless (.ok a) := fun _ h => nomatch h

theorem Faultless.bind {x : Except SnippetError α} {f : α → Except SnippetError β}
    (h : Faultless x) (hf : ∀ a, Faultless (f a)) : Faultless (x >>= f) := by
  cases x with
  | error e => exact fun e' he => h e' (congrArg Except.error (Except.error.inj he))
  | ok a => exact hf a

theorem Faultless.ite {x y : Except SnippetError α} {c : Prop} [Decidable c] (hx : Faultless x)
    (hy : Faultless y) : Faultless (if c then x else y) := by
  split
  · exact hx
  · exact hy

/-! ## Tokens -/

theorem faultless_next (offset : Nat) (c : Char) (cs : List Char) :
    Faultless (Lexeme.next offset c cs) := by
  unfold Lexeme.next
  refine .ite (faultless_ok _) (.ite (faultless_ok _) (.ite ?_ (.ite (faultless_ok _)
    (.ite (faultless_ok _) (.ite ?_ (.ite (faultless_ok _) fun _ h => nomatch h))))))
  · split
    · exact faultless_ok _
    · exact fun _ h => nomatch h
  · split
    · exact faultless_ok _
    · exact fun _ h => nomatch h

theorem faultless_scan (offset : Nat) (cs : List Char) :
    Faultless (SnippetToken.scan offset cs) := by
  fun_induction SnippetToken.scan offset cs with
  | case1 => exact faultless_ok _
  | case2 offset c cs e h =>
    intro fault he
    cases he
    exact faultless_next offset c cs fault h
  | case3 offset c cs kind lexeme rest _ stop _ e h ih =>
    intro fault he
    cases he
    exact ih fault h
  | case4 | case5 | case6 => exact faultless_ok _

theorem faultless_ofText (text : String) : Faultless (SnippetToken.ofText text) :=
  faultless_scan 0 text.toList

/-! ## Readers -/

theorem faultless_anyToken : Faultless (anyToken tokens) := by
  cases tokens <;> exact fun _ h => nomatch h

theorem faultless_mark (c : Char) : Faultless (mark c tokens) := by
  cases tokens with
  | nil => exact fun _ h => nomatch h
  | cons t rest => exact .ite (faultless_ok _) fun _ h => nomatch h

theorem faultless_name : Faultless (name tokens) := by
  cases tokens with
  | nil => exact fun _ h => nomatch h
  | cons t rest => exact .ite (faultless_ok _) fun _ h => nomatch h

theorem faultless_keys : Faultless (keys tokens) := by
  induction tokens with
  | nil => exact fun _ h => nomatch h
  | cons t rest ih =>
    rw [keys]
    refine .ite (faultless_ok _) ?_
    split
    · rename_i e he
      exact fun e' h => ih e' (he.trans (congrArg Except.error (Except.error.inj h)))
    · exact faultless_ok _

theorem faultless_suppressTag : Faultless (suppressTag tokens) := by
  rw [suppressTag]
  refine (faultless_mark '@').bind fun _ => faultless_name.bind fun _ => ?_
  refine .ite (fun _ h => nomatch h) ?_
  exact (faultless_mark '(').bind fun _ => faultless_keys.bind fun _ => faultless_ok _

mutual

theorem faultless_parse (tokens : List SnippetToken) : Faultless (Expr.parse tokens) := by
  rw [Expr.parse]
  refine (faultless_chain tokens).bind fun p => .ite ?_ (faultless_ok _)
  refine (faultless_mark '=').bind fun q => ?_
  have := p.shorter
  have := q.shorter
  exact (faultless_parse q.rest).bind fun _ => faultless_ok _
termination_by 4 * tokens.length + 3
decreasing_by all_goals omega

theorem faultless_chain (tokens : List SnippetToken) : Faultless (chain tokens) := by
  rw [chain]
  refine (faultless_primary tokens).bind fun p => ?_
  have := p.shorter
  exact (faultless_links p.value p.rest).bind fun _ => faultless_ok _
termination_by 4 * tokens.length + 2
decreasing_by all_goals omega

theorem faultless_links (receiver : Expr) (tokens : List SnippetToken) :
    Faultless (links receiver tokens) := by
  rw [links]
  refine .ite ?_ (faultless_ok _)
  refine (faultless_mark '.').bind fun p => faultless_name.bind fun q => ?_
  have := p.shorter
  have := q.shorter
  refine .ite ?_ ?_
  · refine (faultless_arguments q.rest).bind fun r => ?_
    have := r.shorter
    exact (faultless_links _ r.rest).bind fun _ => faultless_ok _
  · exact (faultless_links _ q.rest).bind fun _ => faultless_ok _
termination_by 4 * tokens.length + 1
decreasing_by all_goals omega

theorem faultless_arguments (tokens : List SnippetToken) : Faultless (arguments tokens) := by
  rw [arguments]
  refine (faultless_mark '(').bind fun p => .ite ?_ ?_
  · exact (faultless_mark ')').bind fun _ => faultless_ok _
  · have := p.shorter
    refine (faultless_parse p.rest).bind fun q => ?_
    have := q.shorter
    exact (faultless_moreArguments _ q.rest).bind fun _ => faultless_ok _
termination_by 4 * tokens.length
decreasing_by all_goals omega

theorem faultless_moreArguments (before : List Expr) (tokens : List SnippetToken) :
    Faultless (moreArguments before tokens) := by
  rw [moreArguments]
  refine .ite ?_ ?_
  · exact (faultless_mark ')').bind fun _ => faultless_ok _
  · refine (faultless_mark ',').bind fun p => ?_
    have := p.shorter
    refine (faultless_parse p.rest).bind fun q => ?_
    have := q.shorter
    exact (faultless_moreArguments _ q.rest).bind fun _ => faultless_ok _
termination_by 4 * tokens.length
decreasing_by all_goals omega

theorem faultless_primary (tokens : List SnippetToken) : Faultless (primary tokens) := by
  rw [primary]
  refine faultless_anyToken.bind fun p => ?_
  have := p.shorter
  simp only
  split
  · exact faultless_ok _
  · exact faultless_ok _
  · exact (faultless_parse p.rest).bind fun _ => (faultless_mark ')').bind fun _ => faultless_ok _
  · exact fun _ h => nomatch h
  · refine .ite (faultless_ok _) (.ite (faultless_ok _) (.ite ?_ (.ite (faultless_ok _)
      (.ite ?_ (faultless_ok _)))))
    · refine faultless_name.bind fun q => ?_
      have := q.shorter
      exact (faultless_arguments q.rest).bind fun _ => faultless_ok _
    · exact (faultless_arguments p.rest).bind fun _ => faultless_ok _
termination_by 4 * tokens.length
decreasing_by all_goals omega

end

theorem faultless_declaration : Faultless (declaration isType tokens) := by
  rw [declaration]
  refine faultless_name.bind fun _ => .ite (fun _ h => nomatch h) ?_
  refine faultless_name.bind fun _ => .ite ?_ ?_
  · exact (faultless_mark '=').bind fun _ => (faultless_parse _).bind fun _ =>
      (faultless_mark ';').bind fun _ => faultless_ok _
  · exact (faultless_mark ';').bind fun _ => faultless_ok _

theorem faultless_returnStatement : Faultless (returnStatement tokens) := by
  rw [returnStatement]
  refine faultless_anyToken.bind fun _ => .ite ?_ ?_
  · exact (faultless_mark ';').bind fun _ => faultless_ok _
  · exact (faultless_parse _).bind fun _ => (faultless_mark ';').bind fun _ => faultless_ok _

theorem faultless_expressionStatement : Faultless (expressionStatement tokens) :=
  (faultless_parse _).bind fun _ => (faultless_mark ';').bind fun _ => faultless_ok _

end

mutual

theorem faultless_item (isType : String → Bool) (tokens : List SnippetToken) :
    Faultless (Item.parse isType tokens) := by
  rw [Item.parse]
  refine .ite ?_ (.ite ?_ (.ite faultless_returnStatement (.ite ?_
    (.ite faultless_declaration faultless_expressionStatement))))
  · refine faultless_suppressTag.bind fun p => ?_
    have := p.shorter
    exact (faultless_item isType p.rest).bind fun _ => faultless_ok _
  · refine (faultless_mark '\x7b').bind fun p => ?_
    have := p.shorter
    exact (faultless_blockRest isType [] p.rest).bind fun _ => faultless_ok _
  · refine faultless_anyToken.bind fun p => (faultless_mark '(').bind fun q =>
      (faultless_parse q.rest).bind fun r => (faultless_mark ')').bind fun s => ?_
    have := p.shorter
    have := q.shorter
    have := r.shorter
    have := s.shorter
    refine (faultless_item isType s.rest).bind fun t => .ite ?_ (faultless_ok _)
    have := t.shorter
    refine faultless_anyToken.bind fun u => ?_
    have := u.shorter
    exact (faultless_item isType u.rest).bind fun _ => faultless_ok _
termination_by 2 * tokens.length
decreasing_by all_goals omega

theorem faultless_blockRest (isType : String → Bool) (before : List Item)
    (tokens : List SnippetToken) : Faultless (blockRest isType before tokens) := by
  rw [blockRest]
  refine .ite ?_ ?_
  · exact (faultless_mark '\x7d').bind fun _ => faultless_ok _
  · refine (faultless_item isType tokens).bind fun p => ?_
    have := p.shorter
    exact (faultless_blockRest isType _ p.rest).bind fun _ => faultless_ok _
termination_by 2 * tokens.length + 1
decreasing_by all_goals omega

end

theorem faultless_ofTokens (isType : String → Bool) (tokens : List SnippetToken) :
    Faultless (Item.ofTokens isType tokens) := by
  rw [Item.ofTokens]
  refine .ite (faultless_ok _) ((faultless_item isType tokens).bind fun p => ?_)
  have := p.shorter
  exact (faultless_ofTokens isType p.rest).bind fun _ => faultless_ok _
termination_by tokens.length

end TreeLint.Snippet
