import Dam.Proofs.GrammarSoundness
import Dam.Proofs.NodeRanges

/-!
# The parser's way through the tokens

Whatever a function of the parser does, it takes a stretch of tokens from the front of those
that are left. This file says about every function, in one statement for success and failure,
which stretch that is (`State.Takes`), where in it the faults stand, and how many of them were
noted: fewer than there are tokens, if any. On a success, the tree lies over the stretch.

The number of faults is kept down by the tokens that recovery skips. Faults are noted in
blocks and in the whole program only, and a block has a brace more than it notes faults.
-/

namespace Dam.Parser

open Grammar

/-! ## Faults along the way -/

/-- The place of the first of the tokens, synthetic if there is none. -/
def placeOf : List Token → Span
  | [] => .synthetic
  | t :: _ => t.span

theorem State.here_eq_placeOf (s : State) : s.here = placeOf s.rest := by
  unfold here
  cases s.rest <;> rfl

/-- `Along ts es us`: going along `ts` as far as its end piece `us`, one meets the faults. -/
inductive Along : List Token → List ParseError → List Token → Prop
  | stay {ts : List Token} : Along ts [] ts
  | pass {t : Token} {ts us : List Token} {es : List ParseError} (rest : Along ts es us) :
      Along (t :: ts) es us
  | fault {e : ParseError} {ts us : List Token} {es : List ParseError}
      (place : e.span = placeOf ts) (rest : Along ts es us) : Along ts (e :: es) us

theorem Along.trans {ts us vs : List Token} {es es' : List ParseError} (h : Along ts es us)
    (h' : Along us es' vs) : Along ts (es ++ es') vs := by
  induction h with
  | stay => exact h'
  | pass _ ih => exact .pass (ih h')
  | fault place _ ih => exact .fault place (ih h')

/-- There are no faults, or there are more tokens. -/
def Fewer (es : List ParseError) (ts : List Token) : Prop := es = [] ∨ es.length < ts.length

theorem Fewer.le {es : List ParseError} {ts : List Token} (h : Fewer es ts) :
    es.length ≤ ts.length := by
  rcases h with rfl | h
  · exact Nat.zero_le _
  · omega

theorem Fewer.append {es es' : List ParseError} {ts us : List Token} (h : Fewer es ts)
    (h' : Fewer es' us) : Fewer (es ++ es') (ts ++ us) := by
  have hle := h.le
  have hle' := h'.le
  rcases h with rfl | h
  · rcases h' with rfl | h'
    · exact .inl rfl
    · exact .inr (by rw [List.length_append, List.length_append]; omega)
  · exact .inr (by rw [List.length_append, List.length_append]; omega)

/-! ## Stretches of tokens -/

/--
Between the states the tokens `ts` were taken, and the faults `noted` were noted. On the way
one meets these faults, and behind them those that are `pending`.
-/
structure State.Takes (s : State) (ts : List Token) (noted pending : List ParseError)
    (s' : State) : Prop where
  rest : s.rest = ts ++ s'.rest
  inner : ∀ t ∈ ts, t.kind.isEnd = false
  last : s'.last = ts.getLast?.or s.last
  faults : s'.faults.toList = s.faults.toList ++ noted
  along : Along s.rest (noted ++ pending) s'.rest

namespace State

variable {s s₁ s₂ : State} {ts us : List Token} {es es' ps : List ParseError} {k : TokenKind}

theorem takes_nil (hrest : s₁.rest = s.rest) (hlast : s₁.last = s.last)
    (hfaults : s₁.faults = s.faults) : s.Takes [] [] [] s₁ :=
  ⟨hrest.symm, nofun, hlast, by rw [hfaults, List.append_nil], hrest ▸ .stay⟩

theorem takes_token (h : s.peek = k) (hk : k.isEnd = false) :
    ∃ t, t.kind = k ∧ t.span = s.here ∧ s.Takes [t] [] [] s.advance := by
  obtain ⟨_ | ⟨t, ts⟩, last, nextId, faults⟩ := s
  · subst h
    cases hk
  · obtain rfl : t.kind = k := h
    have hadvance : State.advance ⟨t :: ts, last, nextId, faults⟩ =
        ⟨ts, some t, nextId, faults⟩ := by simp [advance, hk]
    refine ⟨t, rfl, rfl, ?_⟩
    rw [hadvance]
    exact ⟨rfl, by simpa using hk, rfl, (List.append_nil _).symm, .pass .stay⟩

theorem Takes.trans (h : s.Takes ts es [] s₁) (h' : s₁.Takes us es' ps s₂) :
    s.Takes (ts ++ us) (es ++ es') ps s₂ where
  rest := by rw [h.rest, h'.rest, List.append_assoc]
  inner := List.forall_mem_append.mpr ⟨h.inner, h'.inner⟩
  last := by rw [h'.last, h.last, List.getLast?_append, Option.or_assoc]
  faults := by rw [h'.faults, h.faults, List.append_assoc]
  along := by
    have hfirst := h.along
    rw [List.append_nil] at hfirst
    rw [List.append_assoc]
    exact hfirst.trans h'.along

theorem Takes.behind {t : Token} (h : s.Takes ts es ps s₁) (ht : ts.getLast? = some t) :
    s₁.behind = t.span := by
  unfold State.behind
  rw [h.last, ht]
  rfl

theorem Takes.kinds (h : s.Takes ts es ps s₁) : s.kinds = ts.map Token.kind ++ s₁.kinds := by
  have hinner : ∀ t ∈ ts, (!t.kind.isEnd) = true := fun t ht => by rw [h.inner t ht]; rfl
  rw [State.kinds, h.rest, List.takeWhile_append_of_pos hinner, List.map_append]
  rfl

/-- The end of input is never taken. -/
theorem Takes.rest_ne_nil (h : s.Takes ts es ps s₁) (hend : ∃ t ∈ s.rest, t.kind.isEnd = true) :
    s₁.rest ≠ [] := by
  obtain ⟨t, ht, hend⟩ := hend
  intro hnil
  rw [h.rest, hnil, List.append_nil] at ht
  rw [h.inner t ht] at hend
  cases hend

/-- A fault that is noted is no longer pending. -/
theorem Takes.note {e : ParseError} (h : s.Takes ts es [e] s₁) :
    s.Takes ts (es ++ [e]) [] (s₁.note e) where
  rest := h.rest
  inner := h.inner
  last := h.last
  faults := by rw [State.note, Array.toList_push, h.faults, List.append_assoc]
  along := by
    rw [List.append_nil]
    exact h.along

theorem resume_takes (s : State) : ∃ ts, s.Takes ts [] [] s.resume := by
  fun_induction resume s with
  | case1 s | case2 s | case3 s => exact ⟨[], takes_nil rfl rfl rfl⟩
  | case4 s hend _ _ ih =>
      obtain ⟨ts, hts⟩ := ih
      obtain ⟨t, -, -, ht⟩ := takes_token (s := s) rfl (by simpa using hend)
      exact ⟨_, ht.trans hts⟩

/-- Recovery takes at least one token, unless there is none. -/
theorem recover_takes (s : State) :
    ∃ ts, s.Takes ts [] [] s.recover ∧ (ts = [] → s.peek.isEnd = true) := by
  unfold recover
  split
  · rename_i hend
    exact ⟨[], takes_nil rfl rfl rfl, fun _ => hend⟩
  · rename_i hend
    obtain ⟨t, -, -, ht⟩ := takes_token (s := s) rfl (by simpa using hend)
    obtain ⟨ts, hts⟩ := resume_takes s.advance
    exact ⟨_, ht.trans hts, nofun⟩

end State

/-! ## Outcomes -/

/-- What is taken on a success is `Q`, with the faults noted, the value and the state behind. -/
def Outcome.Takes {n : Nat} {α : Type} (x : Outcome n α) (s : State)
    (Q : List Token → List ParseError → α → State → Prop) : Prop :=
  match x with
  | ok a s' _ => ∃ ts es, s.Takes ts es [] s' ∧ Fewer es ts ∧ Q ts es a s'
  | fail e s' _ => ∃ ts es, s.Takes ts es [e] s' ∧ Fewer es ts

namespace Outcome

variable {α β : Type} {m n : Nat} {s s₁ : State} {ts : List Token} {es : List ParseError}
  {P : List Token → List ParseError → α → State → Prop}
  {Q R : List Token → List ParseError → β → State → Prop}

theorem Takes.ok {b : β} {h : s₁.left < n} (hs : s.Takes [] [] [] s₁) (hR : R [] [] b s₁) :
    (Outcome.ok b s₁ h).Takes s R :=
  ⟨[], [], hs, .inl rfl, hR⟩

theorem Takes.mono {x : Outcome n β} (hx : x.Takes s Q)
    (hR : ∀ ts es b s', Q ts es b s' → R ts es b s') : x.Takes s R := by
  cases x with
  | ok b s' h =>
      obtain ⟨ts, es, htakes, hfew, hQ⟩ := hx
      exact ⟨ts, es, htakes, hfew, hR ts es b s' hQ⟩
  | fail e s' h => exact hx

/-- What is taken first stands in front of what is taken then. -/
theorem Takes.after {x : Outcome n β} (h : s.Takes ts es [] s₁) (hfew : Fewer es ts)
    (hx : x.Takes s₁ fun us es' b s' => R (ts ++ us) (es ++ es') b s') : x.Takes s R := by
  cases x with
  | ok b s' hs =>
      obtain ⟨us, es', htakes, hfew', hR⟩ := hx
      exact ⟨_, _, h.trans htakes, hfew.append hfew', hR⟩
  | fail e s' hs =>
      obtain ⟨us, es', htakes, hfew'⟩ := hx
      exact ⟨_, _, h.trans htakes, hfew.append hfew'⟩

theorem Takes.bind {x : Outcome m α} {h : m ≤ n} {f : α → (s : State) → s.left < m → Outcome n β}
    (hx : x.Takes s P)
    (hf : ∀ a s₁ hs ts es, s.Takes ts es [] s₁ → P ts es a s₁ →
      (f a s₁ hs).Takes s₁ fun us es' b s' => R (ts ++ us) (es ++ es') b s') :
    (x.bind h f).Takes s R := by
  cases x with
  | ok a s₁ hs =>
      obtain ⟨ts, es, htakes, hfew, hP⟩ := hx
      exact .after htakes hfew (hf a s₁ hs ts es htakes hP)
  | fail e s₁ hs => exact hx

/-- Where a refusal comes late: its place is passed before `x` is run, and `x` notes no fault. -/
theorem Takes.bind_refuse {x : Outcome m α} {h : m ≤ n} {e : ParseError}
    {f : ∀ s : State, s.left < m → s.left ≤ n} (hx : x.Takes s₁ P) (hs : s.Takes ts [] [] s₁)
    (he : e.span = s.here) (hP : ∀ ts es a s', P ts es a s' → es = []) :
    (x.bind h fun _ s' hs' => .fail e s' (f s' hs')).Takes s R := by
  cases x with
  | ok a s' h =>
      obtain ⟨us, es, htakes, -, hval⟩ := hx
      obtain rfl := hP us es a s' hval
      have hall := hs.trans htakes
      refine ⟨ts ++ us, [], { hall with along := ?_ }, .inl rfl⟩
      exact .fault (he.trans s.here_eq_placeOf) hall.along
  | fail e' s' h =>
      obtain ⟨us, es, htakes, hfew⟩ := hx
      exact ⟨_, _, hs.trans htakes, .append (.inl rfl) hfew⟩

/-- Without faults, the tokens that were taken are those that were read. -/
theorem Takes.derived {x : Outcome n β} {D : List TokenKind → β → State → Prop}
    (hx : x.Takes s Q) (hQ : ∀ ts es b s', Q ts es b s' → es = []) (hd : x.Reads s D) :
    x.Takes s fun ts es b s' => Q ts es b s' ∧ D (ts.map Token.kind) b s' := by
  cases x with
  | fail e s' h => exact hx
  | ok b s' h =>
      obtain ⟨ts, es, htakes, hfew, hval⟩ := hx
      obtain rfl := hQ ts es b s' hval
      have hsize : s'.faults.size = s.faults.size := by
        have hfaults := htakes.faults
        rw [List.append_nil] at hfaults
        rw [← Array.length_toList, hfaults, Array.length_toList]
      obtain ⟨ks, hks, hD⟩ := hd.2 hsize
      obtain rfl := List.append_cancel_right (htakes.kinds.symm.trans hks)
      exact ⟨ts, [], htakes, hfew, hval, hD⟩

end Outcome

/-! ## Tokens -/

theorem refuse_takes {α : Type} (fault : ParseFault) (s : State)
    (R : List Token → List ParseError → α → State → Prop) : (refuse fault s).Takes s R := by
  refine ⟨[], [], ⟨rfl, nofun, rfl, (List.append_nil _).symm, ?_⟩, .inl rfl⟩
  exact .fault s.here_eq_placeOf .stay

theorem expect_takes (m : Mark) (s : State) :
    (expect m s).Takes s fun ts es _ _ => es = [] ∧ ∃ t, ts = [t] ∧ t.kind = .mark m := by
  by_cases h : s.peek = .mark m
  · obtain ⟨t, hkind, -, ht⟩ := State.takes_token h rfl
    rw [expect_mark h]
    exact ⟨_, _, ht, .inl rfl, rfl, t, rfl, hkind⟩
  · rw [expect_other h]
    exact refuse_takes ..

theorem expectName_takes (s : State) :
    (expectName s).Takes s fun ts es x _ =>
      es = [] ∧ ∃ t, ts = [t] ∧ t.kind = .name x ∧ t.span = s.here := by
  by_cases h : ∃ x, s.peek = .name x
  · obtain ⟨x, hx⟩ := h
    obtain ⟨t, hkind, hspan, ht⟩ := State.takes_token hx rfl
    rw [expectName_name hx]
    exact ⟨_, _, ht, .inl rfl, rfl, t, rfl, hkind, hspan⟩
  · rw [expectName_other fun x hx => h ⟨x, hx⟩]
    exact refuse_takes ..

/-! ## Expressions -/

/-- No fault was noted, and the expression lies over the tokens if they are from a text. -/
def Taken (ts : List Token) (es : List ParseError) (e : Expr) (_ : State) : Prop :=
  es = [] ∧ (Row ts → Spread (.expr e) ts)

theorem spread_primary {e : Expr} {t : Token} (hspan : e.span = t.span)
    (hphrase : Primary [t.kind] e.shape) (hparts : (Tree.expr e).children = []) :
    Spread (.expr e) [t] := by
  refine .expr (hspan ▸ bounds_singleton t) ?_ (hparts ▸ .nil)
  exact .level (.loosen (.operand (.primary hphrase)) (by decide))

theorem spread_unary {op : UnaryOp} {node : Node} {operand : Expr} {t : Token} {ts : List Token}
    (hnode : node.span = t.span.merge operand.span) (hop : Changes t.kind op)
    (hphrase : Unary (ts.map Token.kind) operand.shape) (h : Spread (.expr operand) ts)
    (hrow : Row ([t] ++ ts)) : Spread (.expr (.unary node op operand)) ([t] ++ ts) := by
  have hbounds : Bounds ([t] ++ ts) node.span :=
    hnode ▸ (bounds_singleton t).merge h.bounds [] hrow
  have hunary : Unary (t.kind :: ts.map Token.kind) (.unary .blank op operand.shape) :=
    .operator hop hphrase
  have hparts := SpreadAll.cons [t] h (.nil : SpreadAll [] [])
  rw [List.append_nil] at hparts
  exact .expr hbounds (.level (.loosen (.operand hunary) (by decide))) hparts

/-- Two expressions and the operator between them. -/
theorem spread_join {op : Operator} {node : Node} {first second : Expr} {t : Token}
    {ts us : List Token} (hnode : node.span = first.span.merge second.span)
    (hphrase : Level op.level (ts.map Token.kind ++ t.kind :: us.map Token.kind)
      (op.join .blank first.shape second.shape))
    (hfirst : Spread (.expr first) ts) (hsecond : Spread (.expr second) us)
    (hrow : Row (ts ++ ([t] ++ us))) :
    Spread (.expr (op.join node first second)) (ts ++ ([t] ++ us)) := by
  have hbounds : Bounds (ts ++ ([t] ++ us)) node.span :=
    hnode ▸ hfirst.bounds.merge hsecond.bounds [t] hrow
  have hlevel : 1 ≤ op.level := by
    rcases op with op | op | op <;> cases op <;> decide
  have hshape : (op.join node first second).shape =
      op.join .blank first.shape second.shape := by simp
  have hexpression : Expression ((ts ++ ([t] ++ us)).map Token.kind)
      (op.join node first second).shape := by
    rw [hshape, List.map_append]
    exact .level (hphrase.loosen hlevel)
  have hparts := SpreadAll.cons [] hfirst (.cons [t] hsecond (.nil : SpreadAll [] []))
  rw [List.append_nil, List.nil_append] at hparts
  cases op with
  | logical op => exact .expr hbounds hexpression hparts
  | binary op => exact .expr hbounds hexpression hparts

theorem spread_grouping {node : Node} {inner : Expr} {t u : Token} {ts : List Token}
    (hnode : node.span = t.span.merge u.span) (ht : t.kind = .mark .leftParen)
    (hu : u.kind = .mark .rightParen) (h : Spread (.expr inner) ts)
    (hrow : Row ([t] ++ (ts ++ [u]))) :
    Spread (.expr (.grouping node inner)) ([t] ++ (ts ++ [u])) := by
  have hbounds : Bounds ([t] ++ (ts ++ [u])) node.span :=
    hnode ▸ (bounds_singleton t).merge (bounds_singleton u) ts hrow
  have hprimary := Primary.grouping h.phrase
  refine .expr hbounds ?_ (.cons [t] h .nil)
  have hkinds : ([t] ++ (ts ++ [u])).map Token.kind =
      .mark .leftParen :: ts.map Token.kind ++ [.mark .rightParen] := by simp [ht, hu]
  rw [hkinds]
  exact .level (.loosen (.operand (.primary hprimary)) (by decide))

theorem spread_assign {node node' : Node} {x : String} {value : Expr} {t : Token}
    {ts us : List Token} (hnode : node'.span = node.span.merge value.span)
    (htarget : Spread (.expr (.var node x)) ts) (hname : ts.map Token.kind = [.name x])
    (ht : t.kind = .mark .equal) (hvalue : Spread (.expr value) us)
    (hrow : Row (ts ++ ([t] ++ us))) :
    Spread (.expr (.assign node' x value)) (ts ++ ([t] ++ us)) := by
  have hbounds : Bounds (ts ++ ([t] ++ us)) node'.span :=
    hnode ▸ htarget.bounds.merge hvalue.bounds [t] hrow
  have hparts := SpreadAll.cons (ts ++ [t]) hvalue (.nil : SpreadAll [] [])
  rw [List.append_nil, List.append_assoc] at hparts
  refine .expr hbounds ?_ hparts
  have hkinds : (ts ++ ([t] ++ us)).map Token.kind =
      .name x :: .mark .equal :: us.map Token.kind := by
    rw [List.map_append, hname]
    simp [ht]
  rw [hkinds]
  exact .assign hvalue.phrase

-- The recursion is that of the parser, and so are the measures.
mutual

theorem expression_takes (s : State) : (expression s).Takes s Taken := by
  rw [expression]
  refine ((operators_takes 1 (by decide) s).derived (fun _ _ _ _ h => h.1)
    (operators_reads 1 (by decide) s)).bind fun target s₁ hs₁ ts es _ hP => ?_
  obtain ⟨⟨rfl, htarget⟩, hphrase, -⟩ := hP
  by_cases he : s₁.peek = .mark .equal
  · have hlt : s₁.advance.left < s.left := Nat.lt_trans (State.left_advance_lt_of_eq he) hs₁
    obtain ⟨t, hkind, hspan, ht⟩ := State.takes_token he rfl
    have hexpression := expression_takes s₁.advance
    rw [dif_pos he]
    cases target with
    | var node x =>
        refine .after ht (.inl rfl) (hexpression.bind fun value s₂ _ us es _ hP => ?_)
        obtain ⟨rfl, hvalue⟩ := hP
        refine .ok (State.takes_nil rfl rfl rfl) ⟨rfl, fun hrow => ?_⟩
        rw [List.append_nil] at hrow ⊢
        obtain ⟨hrow₁, hrow₂⟩ := hrow.of_append
        exact spread_assign rfl (htarget hrow₁) (hphrase.eq_of_var rfl) hkind
          (hvalue hrow₂.of_append.2) hrow
    | literal | unary | binary | logical | grouping | assign =>
        exact hexpression.bind_refuse ht rfl fun _ _ _ _ h => h.1
  · rw [dif_neg he]
    refine .ok (State.takes_nil rfl rfl rfl) ⟨rfl, ?_⟩
    rw [List.append_nil]
    exact htarget
termination_by 4 * s.left + 3

theorem operators_takes (min : Nat) (hmin : min ≤ 7) (s : State) :
    (operators min s).Takes s Taken := by
  rw [operators]
  refine ((unary_takes s).derived (fun _ _ _ _ h => h.1) (unary_reads s)).bind
    fun first s₁ hs₁ ts es _ hP => ?_
  obtain ⟨⟨rfl, hfirst⟩, hphrase⟩ := hP
  refine (operatorsAfter_takes min first s₁ hs₁).mono ?_
  rintro us _ e s' ⟨rfl, h⟩
  refine ⟨rfl, h 7 ts hmin (fun op _ => ?_) (.operand hphrase) hfirst⟩
  exact Nat.le_succ_of_le (Operator.level_le op)
termination_by 4 * s.left + 2

theorem operatorsAfter_takes {n : Nat} (min : Nat) (first : Expr) (s : State) (h : s.left < n) :
    (operatorsAfter min first s h).Takes s fun us es e _ =>
      es = [] ∧ ∀ m ts, min ≤ m → (∀ op, Operator.ofToken? s.peek = some op → op.level ≤ m) →
        Level m (ts.map Token.kind) first.shape → (Row ts → Spread (.expr first) ts) →
        Row (ts ++ us) → Spread (.expr e) (ts ++ us) := by
  by_cases hbelow : Below min s
  · rw [operatorsAfter_stop hbelow]
    refine .ok (State.takes_nil rfl rfl rfl) ⟨rfl, fun m ts _ _ _ hfirst => ?_⟩
    rw [List.append_nil]
    exact hfirst
  · obtain ⟨op, ho, hmin⟩ : ∃ op, Operator.ofToken? s.peek = some op ∧ min ≤ op.level := by
      simpa [Below] using hbelow
    have hlt := State.left_advance_lt (Operator.isEnd_of_ofToken? ho)
    have hlevel := Operator.level_le op
    obtain ⟨t, hkind, -, ht⟩ := State.takes_token (s := s) rfl (Operator.isEnd_of_ofToken? ho)
    rw [operatorsAfter_join ho hmin]
    refine .after ht (.inl rfl) ?_
    refine ((operators_takes (op.level + 1) (by omega) s.advance).derived (fun _ _ _ _ h => h.1)
      (operators_reads (op.level + 1) (by omega) s.advance)).bind
      fun second s₁ hs₁ us es _ hP => ?_
    obtain ⟨⟨rfl, hsecond⟩, hphrase, hnone⟩ := hP
    have hbump : s₁.Takes [] [] [] s₁.bump := State.takes_nil rfl rfl rfl
    refine .after hbump (.inl rfl) ?_
    refine Outcome.Takes.mono (operatorsAfter_takes min _ s₁.bump _) ?_
    -- the joined phrase is of the level of its operator, and so at most is what comes behind it
    rintro vs _ e s' ⟨rfl, hrest⟩
    refine ⟨rfl, fun m ts hm hnext hfirst hspread hrow => ?_⟩
    have hjoin := Level.join (hfirst.loosen (hnext op ho)) (joins_iff.mpr ⟨ho, rfl⟩) hphrase
    rw [← hkind] at hjoin
    have hafter := hrest op.level (ts ++ ([t] ++ us)) hmin
      (fun op' h' => Nat.le_of_lt_succ (hnone op' h')) (by simpa using hjoin) ?_ ?_
    · simpa using hafter
    · intro hrow'
      obtain ⟨hrow₁, hrow₂⟩ := hrow'.of_append
      exact spread_join rfl hjoin (hspread hrow₁) (hsecond hrow₂.of_append.2) hrow'
    · simpa using hrow
termination_by 4 * s.left

theorem unary_takes (s : State) : (unary s).Takes s Taken := by
  cases ho : UnaryOp.ofToken? s.peek with
  | none =>
      rw [unary_operand ho]
      exact primary_takes s
  | some op =>
      have hlt := State.left_advance_lt (UnaryOp.isEnd_of_ofToken? ho)
      obtain ⟨t, hkind, hspan, ht⟩ :=
        State.takes_token (s := s) rfl (UnaryOp.isEnd_of_ofToken? ho)
      rw [unary_operator ho]
      refine .after ht (.inl rfl) ?_
      refine ((unary_takes s.advance).derived (fun _ _ _ _ h => h.1)
        (unary_reads s.advance)).bind fun operand s₁ _ ts es _ hP => ?_
      obtain ⟨⟨rfl, hoperand⟩, hphrase⟩ := hP
      refine .ok (State.takes_nil rfl rfl rfl) ⟨rfl, fun hrow => ?_⟩
      rw [List.append_nil] at hrow ⊢
      have hnode : s.here.merge operand.span = t.span.merge operand.span := by rw [hspan]
      exact spread_unary hnode (changes_iff.mpr (hkind ▸ ho)) hphrase (hoperand hrow.of_append.2)
        hrow
termination_by 4 * s.left + 1

theorem primary_takes (s : State) : (primary s).Takes s Taken := by
  cases hl : Literal.ofToken? s.peek with
  | some l =>
      obtain ⟨t, hkind, hspan, ht⟩ :=
        State.takes_token (s := s) rfl (Literal.isEnd_of_ofToken? hl)
      rw [primary_literal hl]
      refine .after ht (.inl rfl) (.ok (State.takes_nil rfl rfl rfl) ⟨rfl, fun _ => ?_⟩)
      exact spread_primary hspan.symm (.literal (denotes_iff.mpr (hkind ▸ hl))) rfl
  | none =>
      by_cases hx : ∃ x, s.peek = .name x
      · obtain ⟨x, hx⟩ := hx
        obtain ⟨t, hkind, hspan, ht⟩ := State.takes_token hx rfl
        rw [primary_name hx]
        refine .after ht (.inl rfl) (.ok (State.takes_nil rfl rfl rfl) ⟨rfl, fun _ => ?_⟩)
        exact spread_primary hspan.symm (hkind ▸ .name) rfl
      · by_cases hp : s.peek = .mark .leftParen
        · have hlt := State.left_advance_lt_of_eq hp
          obtain ⟨t, hkind, hspan, ht⟩ := State.takes_token hp rfl
          rw [primary_paren hp]
          refine .after ht (.inl rfl) ?_
          refine (expression_takes s.advance).bind fun inner s₁ _ ts es _ hP => ?_
          obtain ⟨rfl, hinner⟩ := hP
          refine (expect_takes .rightParen s₁).bind fun _ s₂ _ us es hs₂ hP => ?_
          obtain ⟨rfl, u, rfl, hu⟩ := hP
          refine .ok (State.takes_nil rfl rfl rfl) ⟨rfl, fun hrow => ?_⟩
          rw [List.append_nil] at hrow ⊢
          have hnode : s.here.merge s₂.behind = t.span.merge u.span := by
            rw [hspan, hs₂.behind (t := u) rfl]
          exact spread_grouping hnode hkind hu (hinner hrow.of_append.2.of_append.1) hrow
        · rw [primary_other hl (fun x h => hx ⟨x, h⟩) hp]
          exact refuse_takes ..
termination_by 4 * s.left

end

/-! ## Statements -/

section

variable {n : Nat} (start : Span) (s : State) (h : s.left < n)

theorem finish_takes (f : Span → Stmt) :
    (finish start s h f).Takes s fun ts es st _ =>
      es = [] ∧ ∃ t, ts = [t] ∧ t.kind = .mark .semicolon ∧ st = f (start.merge t.span) := by
  refine (expect_takes .semicolon s).bind fun _ s₁ _ ts es hs₁ hP => ?_
  obtain ⟨rfl, t, rfl, ht⟩ := hP
  refine .ok (State.takes_nil rfl rfl rfl) ⟨rfl, t, rfl, ht, ?_⟩
  rw [hs₁.behind (t := t) rfl]

/-- A declaration, with its first word `t` in front. -/
theorem declaredAfter_takes {t : Token} (hstart : start = t.span) (ht : t.kind = .word .letWord) :
    (declaredAfter start s h).Takes s fun ts _ st _ =>
      Row ([t] ++ ts) → Spread (.stmt st) ([t] ++ ts) := by
  subst hstart
  refine (expectName_takes s).bind fun x s₁ _ ts es _ hP => ?_
  obtain ⟨rfl, name, rfl, hname, hspan⟩ := hP
  by_cases he : s₁.peek = .mark .equal
  · obtain ⟨u, -, -, hu⟩ := State.takes_token he rfl
    rw [dif_pos he]
    refine .after hu (.inl rfl) ?_
    refine (expression_takes s₁.advance).bind fun value s₂ _ vs es _ hP => ?_
    obtain ⟨rfl, hvalue⟩ := hP
    refine (finish_takes _ _ _ _).mono ?_
    rintro _ _ _ _ ⟨rfl, v, rfl, -, rfl⟩ hrow
    have hrow' : Row vs := hrow.of_append.2.of_append.2.of_append.2.of_append.1
    exact .stmt (bounds_ends ([name, u] ++ vs) [v] rfl hrow)
      (.cons [t, name, u] (hvalue hrow') .nil)
  · rw [dif_neg he]
    have hbump : s₁.Takes [] [] [] s₁.bump := State.takes_nil rfl rfl rfl
    refine .after hbump (.inl rfl) (Outcome.Takes.mono (finish_takes _ _ _ _) ?_)
    rintro _ _ _ _ ⟨rfl, v, rfl, hv, rfl⟩ hrow
    rw [State.newNode, ← hspan]
    exact .empty ht hname hv (bounds_ends [name] [v] rfl hrow)

theorem printedAfter_takes {t : Token} (hstart : start = t.span) :
    (printedAfter start s h).Takes s fun ts _ st _ =>
      Row ([t] ++ ts) → Spread (.stmt st) ([t] ++ ts) := by
  subst hstart
  refine (expression_takes s).bind fun value s₁ _ ts es _ hP => ?_
  obtain ⟨rfl, hvalue⟩ := hP
  refine (finish_takes _ _ _ _).mono ?_
  rintro _ _ _ _ ⟨rfl, v, rfl, -, rfl⟩ hrow
  have hrow' : Row ts := hrow.of_append.2.of_append.1
  exact .stmt (bounds_ends ts [v] rfl hrow) (.cons [t] (hvalue hrow') .nil)

theorem readAfter_takes {t : Token} (hstart : start = t.span) :
    (readAfter start s h).Takes s fun ts _ st _ =>
      Row ([t] ++ ts) → Spread (.stmt st) ([t] ++ ts) := by
  subst hstart
  refine (expectName_takes s).bind fun x s₁ _ ts es _ hP => ?_
  obtain ⟨rfl, name, rfl, -⟩ := hP
  refine (finish_takes _ _ _ _).mono ?_
  rintro _ _ _ _ ⟨rfl, v, rfl, -, rfl⟩ hrow
  exact .stmt (bounds_ends [name] [v] rfl hrow) .nil

theorem expressionStmt_takes :
    (expressionStmt s).Takes s fun ts _ st _ => Row ts → Spread (.stmt st) ts := by
  refine (expression_takes s).bind fun value s₁ _ ts es hs₁ hP => ?_
  obtain ⟨rfl, hvalue⟩ := hP
  refine (finish_takes _ _ _ _).mono ?_
  rintro _ _ _ _ ⟨rfl, v, rfl, -, rfl⟩ hrow
  have hvalue := hvalue hrow.of_append.1
  obtain ⟨t, _, hfirst, _⟩ := hvalue.bounds
  obtain ⟨us, rfl⟩ := List.head?_eq_some_iff.mp hfirst
  have hhere : s.here = t.span := by
    rw [s.here_eq_placeOf, hs₁.rest]
    rfl
  rw [hhere]
  exact .stmt (bounds_ends us [v] rfl hrow) (.cons [] hvalue .nil)

/-- The parentheses around a condition belong to the statement. -/
theorem condition_takes :
    (condition s h).Takes s fun ts _ e _ =>
      ∃ t us u, ts = [t] ++ (us ++ [u]) ∧ (Row us → Spread (.expr e) us) := by
  refine (expect_takes .leftParen s).bind fun _ s₁ _ ts es _ hP => ?_
  obtain ⟨rfl, t, rfl, -⟩ := hP
  refine (expression_takes s₁).bind fun value s₂ _ us es _ hP => ?_
  obtain ⟨rfl, hvalue⟩ := hP
  refine (expect_takes .rightParen s₂).bind fun _ s₃ _ vs es _ hP => ?_
  obtain ⟨rfl, u, rfl, -⟩ := hP
  exact .ok (State.takes_nil rfl rfl rfl) ⟨t, us, u, by simp, hvalue⟩

end

/-- A statement that begins with a word and a condition. -/
theorem spread_conditional {st : Stmt} {test : Expr} {trees : List Tree} {t l r u : Token}
    {cs us : List Token} (hspan : st.span = t.span.merge u.span) (hu : us.getLast? = some u)
    (hparts : (Tree.stmt st).children = .expr test :: trees)
    (htest : Row cs → Spread (.expr test) cs)
    (htrees : Row us → SpreadAll trees us) (hrow : Row ([t] ++ ([l] ++ (cs ++ [r]) ++ us))) :
    Spread (.stmt st) ([t] ++ ([l] ++ (cs ++ [r]) ++ us)) := by
  have hbounds : Bounds ([t] ++ ([l] ++ (cs ++ [r]) ++ us)) st.span :=
    hspan ▸ bounds_ends ([l] ++ (cs ++ [r])) us hu hrow
  obtain ⟨hrow₁, hrow₂⟩ := hrow.of_append.2.of_append
  have hall := SpreadAll.cons [t, l] (htest hrow₁.of_append.2.of_append.1)
    ((htrees hrow₂).behind [r])
  refine .stmt hbounds (hparts ▸ ?_)
  simpa using hall

/-- To get from a declaration to the end, some token is taken. -/
theorem ne_nil_of_ends {inBlock : Bool} {s s₁ : State} {ts : List Token}
    {es ps : List ParseError} (h : s.Takes ts es ps s₁) (he : ends inBlock s.peek = false)
    (hend : s₁.peek.isEnd = true) : ts ≠ [] := by
  rintro rfl
  have hpeek : s.peek = s₁.peek := by
    unfold State.peek
    rw [h.rest]
    rfl
  rw [ends, hpeek, hend, Bool.true_or] at he
  cases he

mutual

theorem statement_takes (s : State) :
    (statement s).Takes s fun ts _ st _ => Row ts → Spread (.stmt st) ts := by
  by_cases hw : ∃ k, s.peek = .word k
  · obtain ⟨k, hk⟩ := hw
    have hlt := State.left_advance_lt_of_eq hk
    obtain ⟨t, hkind, hspan, ht⟩ := State.takes_token hk rfl
    rw [statement_word hk]
    cases k with
    | ifWord =>
        refine .after ht (.inl rfl) ?_
        refine (condition_takes s.advance _).bind fun test s₁ hs₁ ts es _ hP => ?_
        obtain ⟨l, cs, r, rfl, htest⟩ := hP
        refine (statement_takes s₁).bind fun yes s₂ hs₂ us es' htakes₂ hyes => ?_
        by_cases he : s₂.peek = .word .elseWord
        · have hlt₂ := State.left_advance_lt_of_eq he
          obtain ⟨w, -, -, hw⟩ := State.takes_token he rfl
          rw [dif_pos he]
          refine .after hw (.inl rfl) ?_
          refine (statement_takes s₂.advance).bind fun no s₃ _ vs es'' htakes₃ hno => ?_
          refine .ok (State.takes_nil rfl rfl rfl) fun hrow => ?_
          rw [List.append_nil] at hrow ⊢
          have hno := hno hrow.of_append.2.of_append.2.of_append.2.of_append.2
          obtain ⟨_, u, _, hu, _⟩ := hno.bounds
          refine spread_conditional (by rw [← hspan, ← htakes₃.behind hu]; rfl) ?_ rfl htest ?_ hrow
          · rw [List.getLast?_append, List.getLast?_append, hu]
            rfl
          · intro hrow'
            have hboth := SpreadAll.cons [] (hyes hrow'.of_append.1)
              (.cons [w] hno (.nil : SpreadAll [] []))
            simpa using hboth
        · rw [dif_neg he]
          refine .ok (State.takes_nil rfl rfl rfl) fun hrow => ?_
          rw [List.append_nil] at hrow ⊢
          have hyes := hyes hrow.of_append.2.of_append.2
          obtain ⟨_, u, _, hu, _⟩ := hyes.bounds
          refine spread_conditional (by rw [← hspan, ← htakes₂.behind hu]; rfl) hu rfl htest ?_ hrow
          exact fun _ => by simpa using SpreadAll.cons [] hyes (.nil : SpreadAll [] [])
    | whileWord =>
        refine .after ht (.inl rfl) ?_
        refine (condition_takes s.advance _).bind fun test s₁ hs₁ ts es _ hP => ?_
        obtain ⟨l, cs, r, rfl, htest⟩ := hP
        refine (statement_takes s₁).bind fun body s₂ _ us es' htakes₂ hbody => ?_
        refine .ok (State.takes_nil rfl rfl rfl) fun hrow => ?_
        rw [List.append_nil] at hrow ⊢
        have hbody := hbody hrow.of_append.2.of_append.2
        obtain ⟨_, u, _, hu, _⟩ := hbody.bounds
        refine spread_conditional (by rw [← hspan, ← htakes₂.behind hu]; rfl) hu rfl htest ?_ hrow
        exact fun _ => by simpa using SpreadAll.cons [] hbody (.nil : SpreadAll [] [])
    | printWord => exact .after ht (.inl rfl) (printedAfter_takes _ _ _ hspan.symm)
    | readWord => exact .after ht (.inl rfl) (readAfter_takes _ _ _ hspan.symm)
    | letWord | forWord | returnWord | toWord => exact refuse_takes ..
    | andWord | elseWord | falseWord | nullWord | orWord | trueWord =>
        exact expressionStmt_takes s
  · by_cases hb : s.peek = .mark .leftBrace
    · have hlt := State.left_advance_lt_of_eq hb
      obtain ⟨t, -, hspan, ht⟩ := State.takes_token hb rfl
      obtain ⟨ts, es, ss, htakes, hle, hss, hinner⟩ :=
        declarations_takes true [] s.advance (Nat.le_refl _)
      have hfew : Fewer ([] ++ es) ([t] ++ ts) := .inr (by simpa using Nat.lt_succ_of_le hle)
      rw [statement_brace hb]
      refine .after (ht.trans htakes) hfew ?_
      refine (expect_takes .rightBrace _).bind fun _ s₂ _ us es' htakes₂ hP => ?_
      obtain ⟨rfl, u, rfl, -⟩ := hP
      refine .ok (State.takes_nil rfl rfl rfl) fun hrow => ?_
      rw [List.append_nil, List.append_assoc] at hrow ⊢
      have hinner := hinner hrow.of_append.2.of_append.1
      rw [hss, htakes₂.behind (t := u) rfl, ← hspan]
      exact .stmt (bounds_ends ts [u] rfl hrow) ((hinner.before [u]).behind [t])
    · rw [statement_other (fun k h => hw ⟨k, h⟩) hb]
      exact expressionStmt_takes s
termination_by 3 * s.left

theorem declaration_takes (s : State) :
    (declaration s).Takes s fun ts _ st _ => Row ts → Spread (.stmt st) ts := by
  by_cases h : s.peek = .word .letWord
  · obtain ⟨t, hkind, hspan, ht⟩ := State.takes_token h rfl
    rw [declaration_let h]
    exact .after ht (.inl rfl) (declaredAfter_takes _ _ _ hspan.symm hkind)
  · rw [declaration_other h]
    exact statement_takes s
termination_by 3 * s.left + 1

/-- Declarations take at least as many tokens as they note faults. -/
theorem declarations_takes {n : Nat} (inBlock : Bool) (done : List Stmt) (s : State)
    (h : s.left ≤ n) :
    ∃ ts es ss, s.Takes ts es [] (declarations inBlock done s h).1.2 ∧ es.length ≤ ts.length ∧
      (declarations inBlock done s h).1.1 = done.reverse ++ ss ∧
      (Row ts → SpreadAll (ss.map Tree.stmt) ts) := by
  cases he : ends inBlock s.peek with
  | true =>
      rw [declarations_end he]
      exact ⟨[], [], [], State.takes_nil rfl rfl rfl, Nat.le_refl _, by simp, fun _ => .nil⟩
  | false =>
      have hd := declaration_takes s
      cases hx : declaration s with
      | ok st s₁ hs₁ =>
          rw [hx] at hd
          obtain ⟨ts, es, htakes, hfew, hst⟩ := hd
          rw [declarations_ok he hx]
          obtain ⟨us, es', ss, htakes', hle, hss, hinner⟩ := declarations_takes inBlock (st :: done)
            s₁ (Nat.le_of_lt (Nat.lt_of_lt_of_le hs₁ h))
          refine ⟨ts ++ us, es ++ es', st :: ss, htakes.trans htakes', ?_, ?_, ?_⟩
          · have hle' := hfew.le
            rw [List.length_append, List.length_append]
            omega
          · simpa using hss
          · intro hrow
            obtain ⟨hrow₁, hrow₂⟩ := hrow.of_append
            exact .cons [] (hst hrow₁) (hinner hrow₂)
      | fail e s₁ hs₁ =>
          rw [hx] at hd
          obtain ⟨ts, es, htakes, hfew⟩ := hd
          have hlt := State.left_recover_lt (s := s₁.note e) hs₁ (left_pos_of_ends he)
          rw [declarations_fail he hx]
          obtain ⟨us, es', ss, htakes', hle, hss, hinner⟩ := declarations_takes inBlock done
            (s₁.note e).recover (Nat.le_of_lt (Nat.lt_of_lt_of_le hlt h))
          obtain ⟨vs, hrecover, hend⟩ := (s₁.note e).recover_takes
          refine ⟨ts ++ vs ++ us, es ++ [e] ++ [] ++ es', ss,
            (htakes.note.trans hrecover).trans htakes', ?_, hss, ?_⟩
          · -- the fault is paid for by a token that was skipped, or by one that was read
            have hpaid : es.length + 1 ≤ ts.length + vs.length := by
              have hle' := hfew.le
              cases vs with
              | cons v vs =>
                  rw [List.length_cons]
                  omega
              | nil =>
                  rcases hfew with rfl | hfew
                  · have hpos := List.length_pos_iff.mpr (ne_nil_of_ends htakes he (hend rfl))
                    omega
                  · omega
            simp only [List.length_append, List.length_cons, List.length_nil]
            omega
          · intro hrow
            exact (hinner hrow.of_append.2).behind _
termination_by 3 * s.left + 2

end

end Dam.Parser
