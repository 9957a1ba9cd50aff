import Dam.Generator.Stmt
import Dam.Program.Json
import Dam.Proofs.JsonNumbers
import Dam.Proofs.Spans

/-!
# Programs and their JSON form

A program is read back from its JSON form, in either layout, as long as no more brackets stand
in each other than the reader takes: the reader counts brackets down where it opens them, so
it refuses a value exactly if its nesting is greater than the number it starts with.
-/

namespace Dam

/-! ## Nesting -/

namespace Json

mutual

/-- The most brackets that stand in each other in a value. -/
def nesting : Json → Nat
  | .array vs => 1 + nestingItems vs
  | .object ms => 1 + nestingMembers ms
  | _ => 0

/-- The greatest nesting of items. -/
def nestingItems : List Json → Nat
  | [] => 0
  | v :: vs => max (nesting v) (nestingItems vs)

/-- The greatest nesting of the values of members. -/
def nestingMembers : List (String × Json) → Nat
  | [] => 0
  | (_, v) :: ms => max (nesting v) (nestingMembers ms)

end

attribute [simp] nesting nestingItems nestingMembers

@[simp] theorem nesting_ofNat (n : Nat) : (ofNat n).nesting = 0 := by
  rw [ofNat, nesting]
  all_goals exact fun _ => Json.noConfusion

@[simp] theorem nesting_variant (name : String) (body : Json) :
    (variant name body).nesting = 1 + body.nesting := by
  simp [variant]

/-- What is read, unless it needs more brackets than may be opened. -/
def within {α : Type} (need depth : Nat) (a : α) : Option α := if need ≤ depth then some a else none

section

variable {α β : Type} {need need' depth depth' : Nat}

theorem within_of_le (h : need ≤ depth) (a : α) : within need depth a = some a := if_pos h

theorem within_of_lt (h : depth < need) (a : α) : within need depth a = none :=
  if_neg (Nat.not_le.mpr h)

theorem within_congr (h : need ≤ depth ↔ need' ≤ depth') (a : α) :
    within need depth a = within need' depth' a := by
  unfold within
  by_cases hfit : need ≤ depth
  · rw [if_pos hfit, if_pos (h.mp hfit)]
  · rw [if_neg hfit, if_neg fun hc => hfit (h.mpr hc)]

/-- Two parts are read if there are enough brackets for either. -/
theorem within_bind {a : α} {b : β} {f : α → Option β} (h : f a = within need' depth b) :
    within need depth a >>= f = within (max need need') depth b := by
  by_cases hfit : need ≤ depth
  · rw [within_of_le hfit]
    exact h.trans (within_congr (by omega) b)
  · rw [within_of_lt (by omega), within_of_lt (by omega)]
    rfl

theorem within_bind_some {a : α} {b : β} {f : α → Option β} (h : f a = some b) :
    within need depth a >>= f = within need depth b := by
  have hzero : f a = within 0 depth b := h.trans (within_of_le (Nat.zero_le depth) b).symm
  exact (within_bind hzero).trans (within_congr (by omega) b)

theorem within_map (a : α) (f : α → β) :
    (within need depth a).map f = within need depth (f a) := by
  rw [Option.map_eq_bind]
  exact within_bind_some rfl

end

/-! ## Records -/

theorem filter_name {ms : List (String × Json)} (h : (ms.map Prod.fst).Nodup)
    {m : String × Json} (hm : m ∈ ms) : (ms.filter fun m' => m'.1 == m.1) = [m] := by
  induction ms with
  | nil => cases hm
  | cons m' ms ih =>
      rw [List.map_cons, List.nodup_cons] at h
      obtain ⟨hnew, hrest⟩ := h
      rcases List.mem_cons.mp hm with rfl | hm
      · -- no other member has the name
        have hnone : (ms.filter fun m' => m'.1 == m.1) = [] := by
          rw [List.filter_eq_nil_iff]
          intro m' hm' heq
          rw [← eq_of_beq heq] at hnew
          exact hnew (List.mem_map_of_mem hm')
        rw [List.filter_cons, if_pos (beq_self_eq_true m.1), hnone]
      · have hne : ¬ (m'.1 == m.1) = true := by
          intro heq
          rw [eq_of_beq heq] at hnew
          exact hnew (List.mem_map_of_mem hm)
        rw [List.filter_cons, if_neg hne, ih hrest hm]

/-- The members of a record are found under their names. -/
theorem members?_object {names : List String} {ms : List (String × Json)}
    (hnames : ms.map Prod.fst = names) (h : names.Nodup) :
    members? names (.object ms) = some (ms.map fun m => some m.2) := by
  subst hnames
  unfold members?
  refine mapM_map_eq_some fun m hm => ?_
  rw [filter_name h hm]

theorem fields?_object {names : List String} {ms : List (String × Json)}
    (hnames : ms.map Prod.fst = names) (h : names.Nodup) :
    fields? names (.object ms) = some (ms.map Prod.snd) := by
  unfold fields?
  rw [members?_object hnames h]
  exact mapM_map_eq_some fun m _ => rfl

end Json

/-! ## What a JSON form can hold -/

/-- Ids have 32 bits. -/
def Node.Fits (n : Node) : Prop := n.id < twoTo 32 ∧ n.span.Fits

/-- A number is finite, and its text stands for it. -/
def Literal.Fits : Literal → Prop
  | number x => x.isFinite = true ∧ (Json.number x.json).binary64? = some x
  | _ => True

/-- All nodes and constants of an expression fit. -/
def Expr.Fits : Expr → Prop
  | literal n v => n.Fits ∧ v.Fits
  | var n _ => n.Fits
  | unary n _ a | grouping n a | assign n _ a => n.Fits ∧ a.Fits
  | binary n l _ r | logical n l _ r => n.Fits ∧ l.Fits ∧ r.Fits

namespace Stmt

mutual

/-- All places and expressions of a statement fit. -/
def Fits : Stmt → Prop
  | declare s _ e | print s e | expression s e => s.Fits ∧ e.Fits
  | read s _ => s.Fits
  | ifThen s e yes => s.Fits ∧ e.Fits ∧ yes.Fits
  | ifElse s e yes no => s.Fits ∧ e.Fits ∧ yes.Fits ∧ no.Fits
  | whileDo s e body => s.Fits ∧ e.Fits ∧ body.Fits
  | block s ss => s.Fits ∧ FitsAll ss

/-- All of the statements fit. -/
def FitsAll : List Stmt → Prop
  | [] => True
  | st :: sts => st.Fits ∧ FitsAll sts

end

end Stmt

/-- All places, statements and constants of a program fit. -/
def Program.Fits (p : Program) : Prop := p.span.Fits ∧ Stmt.FitsAll p.stmts

/-! ## Spans and literals -/

open Json

@[simp] theorem Span.nesting_toJson (s : Span) : s.toJson.nesting = 1 := by
  simp [Span.toJson]

theorem Span.ofJson?_toJson {s : Span} (h : s.Fits) (d : Nat) :
    Span.ofJson? d s.toJson = within 1 d s := by
  obtain ⟨hstart, hstop, hline, hcol⟩ := h
  have hfields : s.toJson.fields? ["start", "end", "line", "col"] =
      some [.ofNat s.start, .ofNat s.stop, .ofNat s.line, .ofNat s.col] :=
    fields?_object rfl (by decide)
  by_cases hd : d = 0
  · rw [Span.ofJson?, if_pos hd, within_of_lt (by omega)]
  · unfold Span.ofJson?
    rw [if_neg hd, within_of_le (by omega), hfields]
    simp only [nat?_ofNat, if_pos hstart, if_pos hstop, if_pos hline, if_pos hcol]
    rfl

theorem Literal.ofJson?_toJson {v : Literal} (h : v.Fits) (d : Nat) :
    Literal.ofJson? d v.toJson = within v.toJson.nesting d v := by
  by_cases hd : d = 0
  · cases v with
    | null => simp [Literal.toJson, Literal.ofJson?, within]
    | _ => simp [Literal.toJson, Literal.ofJson?, within, variant, hd]
  · have hle : 1 ≤ d := by omega
    cases v with
    | number x =>
        obtain ⟨hfinite, hexact⟩ := h
        simp [Literal.toJson, Literal.ofJson?, within, variant, Binary64.toJson, hd, hle, hfinite,
          hexact]
    | _ => simp [Literal.toJson, Literal.ofJson?, within, variant, hd, hle]

/-! ## Expressions -/

@[simp] theorem Node.nesting_toJson (n : Node) (kind : Json) :
    (n.toJson kind).nesting = 1 + max kind.nesting 1 := by
  simp [Node.toJson]

theorem Node.fields?_toJson (n : Node) (kind : Json) :
    (n.toJson kind).fields? ["id", "kind", "span"] = some [.ofNat n.id, kind, n.span.toJson] :=
  fields?_object rfl (by decide)

theorem UnaryOp.ofJson?_caseName (d : Nat) (op : UnaryOp) :
    UnaryOp.ofJson? d (.string op.caseName) = some op := by
  cases op <;> rfl

theorem LogicalOp.ofJson?_caseName (d : Nat) (op : LogicalOp) :
    LogicalOp.ofJson? d (.string op.caseName) = some op := by
  cases op <;> rfl

theorem BinaryOp.ofJson?_caseName (d : Nat) (op : BinaryOp) :
    BinaryOp.ofJson? d (.string op.caseName) = some op := by
  cases op with
  | arith op => cases op <;> rfl
  | compare op => cases op <;> rfl

namespace Expr

/-- A node is read if what is particular to it is. -/
theorem ofJson?_of_kind {n : Node} (hn : n.Fits) {kind : Json} {e : Expr}
    (hkind : ∀ d, ofKind? d n kind = within kind.nesting d e) (d : Nat) :
    ofJson? d (n.toJson kind) = within (n.toJson kind).nesting d e := by
  obtain ⟨hid, hspan⟩ := hn
  cases d with
  | zero =>
      rw [ofJson?, within_of_lt (by simp)]
  | succ d =>
      rw [ofJson?, Node.fields?_toJson]
      simp only [nat?_ofNat, if_pos hid, Span.ofJson?_toJson hspan]
      refine Eq.trans (within_bind (f := fun s => ofKind? d ⟨n.id, s⟩ kind) (hkind d))
        (within_congr ?_ e)
      rw [Node.nesting_toJson]
      omega

theorem ofKind?_zero (n : Node) (kind : Json) : ofKind? 0 n kind = none := by
  rw [ofKind?]
  all_goals
    intros
    omega

/-- What is held in an array takes two brackets. -/
theorem ofKind?_one (n : Node) (name : String) (vs : List Json) :
    ofKind? 1 n (.object [(name, .array vs)]) = none := by
  unfold ofKind?
  split
  case h_1 hdepth hkind =>
    cases hdepth
    cases hkind
    rfl
  case h_2 hkind => cases hkind
  case h_6 hdepth hkind =>
    cases hdepth
    rw [ofJson?]
    rfl
  case h_8 => rfl
  all_goals omega

/-- What is particular to a node, where it is held as it is. -/
theorem ofKind?_plain {n : Node} {name : String} {body : Json} {e : Expr}
    (h : ∀ d, ofKind? (d + 1) n (.object [(name, body)]) = within body.nesting d e) (d : Nat) :
    ofKind? d n (variant name body) = within (variant name body).nesting d e := by
  rw [nesting_variant, variant]
  cases d with
  | zero => rw [ofKind?_zero, within_of_lt (by omega)]
  | succ d => exact (h d).trans (within_congr (by omega) e)

/-- What is particular to a node, where it is held in an array. -/
theorem ofKind?_array {n : Node} {name : String} {vs : List Json} {e : Expr}
    (h : ∀ d, ofKind? (d + 2) n (.object [(name, .array vs)]) = within (nestingItems vs) d e)
    (d : Nat) :
    ofKind? d n (variant name (.array vs)) = within (variant name (.array vs)).nesting d e := by
  refine ofKind?_plain (fun d => ?_) d
  rw [nesting]
  cases d with
  | zero => rw [ofKind?_one, within_of_lt (by omega)]
  | succ d => exact (h d).trans (within_congr (by omega) e)

/-- **An expression is read back if it is not nested too deeply.** -/
theorem ofJson?_toJson (e : Expr) (h : e.Fits) (d : Nat) :
    ofJson? d e.toJson = within e.toJson.nesting d e := by
  induction e generalizing d with
  | literal n v =>
      obtain ⟨hn, hv⟩ := h
      rw [toJson]
      refine ofJson?_of_kind hn (ofKind?_plain fun d => ?_) d
      rw [ofKind?, Literal.ofJson?_toJson hv, within_map]
  | var n x =>
      rw [toJson]
      refine ofJson?_of_kind h (ofKind?_plain fun d => ?_) d
      rw [ofKind?, within_of_le (by simp)]
  | unary n op a ih =>
      obtain ⟨hn, ha⟩ := h
      rw [toJson]
      refine ofJson?_of_kind hn (ofKind?_array fun d => ?_) d
      rw [ofKind?, UnaryOp.ofJson?_caseName, ih ha]
      exact Eq.trans (within_bind_some rfl) (within_congr (by simp) _)
  | binary n l op r ihl ihr =>
      obtain ⟨hn, hl, hr⟩ := h
      rw [toJson]
      refine ofJson?_of_kind hn (ofKind?_array fun d => ?_) d
      rw [ofKind?, BinaryOp.ofJson?_caseName, ihl hl, ihr hr]
      exact Eq.trans (within_bind (within_bind_some rfl)) (within_congr (by simp) _)
  | logical n l op r ihl ihr =>
      obtain ⟨hn, hl, hr⟩ := h
      rw [toJson]
      refine ofJson?_of_kind hn (ofKind?_array fun d => ?_) d
      rw [ofKind?, LogicalOp.ofJson?_caseName, ihl hl, ihr hr]
      exact Eq.trans (within_bind (within_bind_some rfl)) (within_congr (by simp) _)
  | grouping n a ih =>
      obtain ⟨hn, ha⟩ := h
      rw [toJson]
      refine ofJson?_of_kind hn (ofKind?_plain fun d => ?_) d
      rw [ofKind?, ih ha, within_map]
  | assign n x a ih =>
      obtain ⟨hn, ha⟩ := h
      rw [toJson]
      refine ofJson?_of_kind hn (ofKind?_array fun d => ?_) d
      rw [ofKind?, ih ha, within_map]
      exact within_congr (by simp) _

end Expr

/-! ## Statements -/

namespace Stmt

theorem listToJson_eq (ss : List Stmt) (done : List Json) :
    listToJson done ss = done.reverse ++ ss.map toJson := by
  induction ss generalizing done with
  | nil => rw [listToJson, List.map_nil, List.append_nil]
  | cons st ss ih =>
      rw [listToJson, ih, List.reverse_cons, List.append_assoc]
      rfl

/-- A statement is never mistaken for one that is missing. -/
theorem exists_toJson_eq (st : Stmt) : ∃ ms, st.toJson = .object ms := by
  cases st <;> exact ⟨_, by rw [toJson, variant]⟩

theorem ofJson?_of_lt {d : Nat} (h : d < 2) (j : Json) : ofJson? d j = none := by
  rw [ofJson?]
  all_goals
    intros
    omega

/-- A case that holds a record takes two brackets. -/
theorem ofJson?_record {name : String} {ms : List (String × Json)} {st : Stmt}
    (h : ∀ d, ofJson? (d + 2) (.object [(name, .object ms)]) = within (nestingMembers ms) d st)
    (d : Nat) :
    ofJson? d (variant name (.object ms)) = within (variant name (.object ms)).nesting d st := by
  rw [nesting_variant, nesting]
  by_cases hd : d < 2
  · rw [ofJson?_of_lt hd, within_of_lt (by omega)]
  · obtain ⟨k, rfl⟩ : ∃ k, d = k + 2 := ⟨d - 2, by omega⟩
    exact (h k).trans (within_congr (by omega) st)

/-- Statements are read one after the other, inside one more bracket. -/
theorem listOfJson?_of_mapM {ss : List Stmt}
    (h : ∀ d, (ss.map toJson).mapM (ofJson? d) = within (nestingItems (ss.map toJson)) d ss)
    (d : Nat) :
    listOfJson? d (.array (listToJson [] ss)) =
      within (Json.array (listToJson [] ss)).nesting d ss := by
  rw [listToJson_eq, List.reverse_nil, List.nil_append, nesting]
  cases d with
  | zero =>
      rw [listOfJson?, within_of_lt (by omega)]
      intros
      omega
  | succ d =>
      rw [listOfJson?, h]
      exact within_congr (by omega) ss

mutual

/-- **A statement is read back if it is not nested too deeply.** -/
theorem ofJson?_toJson : ∀ (st : Stmt) (_ : st.Fits) (d : Nat),
    ofJson? d st.toJson = within st.toJson.nesting d st
  | .declare s x e, h, d => by
      rw [Fits] at h
      rw [toJson]
      refine ofJson?_record (fun d => ?_) d
      rw [ofJson?, fields?_object]
      · simp only [List.map_cons, List.map_nil, Span.ofJson?_toJson h.1, e.ofJson?_toJson h.2]
        exact Eq.trans (within_bind (within_bind_some rfl)) (within_congr (by simp; omega) _)
      · rfl
      · decide
  | .print s e, h, d => by
      rw [Fits] at h
      rw [toJson]
      refine ofJson?_record (fun d => ?_) d
      rw [ofJson?, fields?_object]
      · simp only [List.map_cons, List.map_nil, Span.ofJson?_toJson h.1, e.ofJson?_toJson h.2]
        exact Eq.trans (within_bind (within_bind_some rfl)) (within_congr (by simp; omega) _)
      · rfl
      · decide
  | .read s x, h, d => by
      rw [Fits] at h
      rw [toJson]
      refine ofJson?_record (fun d => ?_) d
      rw [ofJson?, fields?_object]
      · simp only [List.map_cons, List.map_nil, Span.ofJson?_toJson h]
        exact Eq.trans (within_bind_some rfl) (within_congr (by simp) _)
      · rfl
      · decide
  | .ifThen s e yes, h, d => by
      rw [Fits] at h
      obtain ⟨hs, he, hyes⟩ := h
      rw [toJson]
      refine ofJson?_record (fun d => ?_) d
      rw [ofJson?, members?_object]
      · simp only [List.map_cons, List.map_nil, Span.ofJson?_toJson hs, e.ofJson?_toJson he,
          ofJson?_toJson yes hyes]
        exact Eq.trans (within_bind (within_bind (within_bind_some rfl)))
          (within_congr (by simp; omega) _)
      · rfl
      · decide
  | .ifElse s e yes no, h, d => by
      rw [Fits] at h
      obtain ⟨hs, he, hyes, hno⟩ := h
      rw [toJson]
      refine ofJson?_record (fun d => ?_) d
      rw [ofJson?, members?_object]
      · have ihno := ofJson?_toJson no hno d
        obtain ⟨ms, hms⟩ := exists_toJson_eq no
        rw [hms] at ihno ⊢
        simp only [List.map_cons, List.map_nil, Span.ofJson?_toJson hs, e.ofJson?_toJson he,
          ofJson?_toJson yes hyes, ihno]
        exact Eq.trans (within_bind (within_bind (within_bind (within_bind_some rfl))))
          (within_congr (by simp) _)
      · rfl
      · decide
  | .whileDo s e body, h, d => by
      rw [Fits] at h
      obtain ⟨hs, he, hbody⟩ := h
      rw [toJson]
      refine ofJson?_record (fun d => ?_) d
      rw [ofJson?, fields?_object]
      · simp only [List.map_cons, List.map_nil, Span.ofJson?_toJson hs, e.ofJson?_toJson he,
          ofJson?_toJson body hbody]
        exact Eq.trans (within_bind (within_bind (within_bind_some rfl)))
          (within_congr (by simp; omega) _)
      · rfl
      · decide
  | .block s ss, h, d => by
      rw [Fits] at h
      rw [toJson]
      refine ofJson?_record (fun d => ?_) d
      rw [ofJson?, fields?_object]
      · simp only [List.map_cons, List.map_nil, Span.ofJson?_toJson h.1,
          listOfJson?_of_mapM (mapM_toJson ss h.2)]
        exact Eq.trans (within_bind (within_bind_some rfl)) (within_congr (by simp) _)
      · rfl
      · decide
  | .expression s e, h, d => by
      rw [Fits] at h
      rw [toJson]
      refine ofJson?_record (fun d => ?_) d
      rw [ofJson?, fields?_object]
      · simp only [List.map_cons, List.map_nil, Span.ofJson?_toJson h.1, e.ofJson?_toJson h.2]
        exact Eq.trans (within_bind (within_bind_some rfl)) (within_congr (by simp; omega) _)
      · rfl
      · decide

theorem mapM_toJson : ∀ (ss : List Stmt) (_ : FitsAll ss) (d : Nat),
    (ss.map toJson).mapM (ofJson? d) = within (nestingItems (ss.map toJson)) d ss
  | [], _, d => by
      rw [List.map_nil, nestingItems, within_of_le (Nat.zero_le d)]
      rfl
  | st :: sts, h, d => by
      rw [FitsAll] at h
      rw [List.map_cons, List.mapM_cons, ofJson?_toJson st h.1, mapM_toJson sts h.2, nestingItems]
      exact within_bind (within_bind_some rfl)

end

end Stmt

/-! ## Every form is legible -/

theorem legible_variant {name : String} {body : Json} (h : body.Legible) :
    (variant name body).Legible := by
  simp [variant, Legible, LegibleMembers, h]

theorem Span.legible_toJson (s : Span) : s.toJson.Legible := by
  simp [Span.toJson, Legible, LegibleMembers, legible_ofNat]

theorem Node.legible_toJson (n : Node) {kind : Json} (h : kind.Legible) :
    (n.toJson kind).Legible := by
  simp [Node.toJson, Legible, LegibleMembers, legible_ofNat, h, n.span.legible_toJson]

/-- Numbers that are not finite have no text, and are left out. -/
theorem Binary64.legible_toJson (x : Binary64) : x.toJson.Legible := by
  unfold Binary64.toJson
  split
  · rename_i hfinite
    rw [Legible]
    exact isNumber_json hfinite
  · simp [Legible]

theorem Literal.legible_toJson (v : Literal) : v.toJson.Legible := by
  cases v with
  | number x => exact legible_variant x.legible_toJson
  | string s => exact legible_variant (by simp [Legible])
  | bool b => exact legible_variant (by simp [Legible])
  | null => simp [Literal.toJson, Legible]

theorem Expr.legible_toJson (e : Expr) : e.toJson.Legible := by
  induction e with
  | literal n v => exact n.legible_toJson (legible_variant v.legible_toJson)
  | var n x => exact n.legible_toJson (legible_variant (by simp [Legible]))
  | unary n op a ih =>
      exact n.legible_toJson (legible_variant (by simp [Legible, LegibleItems, ih]))
  | binary n l op r ihl ihr | logical n l op r ihl ihr =>
      exact n.legible_toJson (legible_variant (by simp [Legible, LegibleItems, ihl, ihr]))
  | grouping n a ih => exact n.legible_toJson (legible_variant ih)
  | assign n x a ih =>
      exact n.legible_toJson (legible_variant (by simp [Legible, LegibleItems, ih]))

mutual

theorem Stmt.legible_toJson : ∀ st : Stmt, st.toJson.Legible
  | .declare s x e | .print s e | .expression s e => by
      rw [Stmt.toJson]
      exact legible_variant
        (by simp [Legible, LegibleMembers, e.legible_toJson, s.legible_toJson])
  | .read s x => by
      rw [Stmt.toJson]
      exact legible_variant (by simp [Legible, LegibleMembers, s.legible_toJson])
  | .ifThen s e yes => by
      rw [Stmt.toJson]
      exact legible_variant (by simp [Legible, LegibleMembers, e.legible_toJson, s.legible_toJson,
        Stmt.legible_toJson yes])
  | .ifElse s e yes no => by
      rw [Stmt.toJson]
      exact legible_variant (by simp [Legible, LegibleMembers, e.legible_toJson, s.legible_toJson,
        Stmt.legible_toJson yes, Stmt.legible_toJson no])
  | .whileDo s e body => by
      rw [Stmt.toJson]
      exact legible_variant (by simp [Legible, LegibleMembers, e.legible_toJson, s.legible_toJson,
        Stmt.legible_toJson body])
  | .block s ss => by
      rw [Stmt.toJson, Stmt.listToJson_eq]
      exact legible_variant (by simp [Legible, LegibleMembers, s.legible_toJson,
        Stmt.legible_map_toJson ss])

theorem Stmt.legible_map_toJson : ∀ ss : List Stmt, LegibleItems (ss.map Stmt.toJson)
  | [] => by simp [LegibleItems]
  | st :: sts => by
      rw [List.map_cons, LegibleItems]
      exact ⟨Stmt.legible_toJson st, Stmt.legible_map_toJson sts⟩

end

/-! ## Programs -/

namespace Program

variable {p : Program}

theorem legible_toJson (p : Program) : p.toJson.Legible := by
  rw [toJson, Stmt.listToJson_eq]
  simp [Legible, LegibleMembers, p.span.legible_toJson, Stmt.legible_map_toJson]

theorem ofJson?_toJson (h : p.Fits) (depth : Nat) :
    ofJson? depth p.toJson = if p.toJson.nesting ≤ depth then some p else none := by
  obtain ⟨hspan, hstmts⟩ := h
  have hnesting : p.toJson.nesting =
      1 + max (array (Stmt.listToJson [] p.stmts)).nesting 1 := by
    rw [toJson]
    simp only [nesting, nestingMembers, Span.nesting_toJson]
    omega
  cases depth with
  | zero => rw [ofJson?, if_neg (by omega)]
  | succ depth =>
      have hfields : p.toJson.fields? ["stmts", "span"] =
          some [.array (Stmt.listToJson [] p.stmts), p.span.toJson] :=
        fields?_object rfl (by decide)
      rw [ofJson?, hfields]
      simp only [Stmt.listOfJson?_of_mapM (Stmt.mapM_toJson p.stmts hstmts),
        Span.ofJson?_toJson hspan]
      refine Eq.trans (within_bind (within_bind_some rfl)) (within_congr ?_ p)
      rw [hnesting]
      omega

/-- Whatever the layout, reading the text is reading the form. -/
theorem parseJson?_eq {text : String} (h : text = p.toJson.pretty ∨ text = p.toJson.compact)
    (depth : Nat) : parseJson? depth text = ofJson? depth p.toJson := by
  have hparse : parse? text = some p.toJson := by
    rcases h with h | h
    · rw [h]
      exact parse?_pretty p.legible_toJson
    · rw [h]
      exact parse?_compact p.legible_toJson
  unfold parseJson?
  rw [hparse]
  rfl

/--
**A program is read back from its JSON text**, in either layout, if no more brackets stand in
each other than the reader takes. Otherwise it is refused. So nothing else is ever read, and
what is read has the same code.
-/
theorem json_roundTrip (h : p.Fits) {text : String}
    (htext : text = p.toJson.pretty ∨ text = p.toJson.compact) (depth : Nat) :
    parseJson? depth text = (if p.toJson.nesting ≤ depth then some p else none) ∧
      ∀ q, parseJson? depth text = some q →
        Generator.empty.generate q = Generator.empty.generate p ∧ q.assemble = p.assemble := by
  have hread : parseJson? depth text = if p.toJson.nesting ≤ depth then some p else none := by
    rw [parseJson?_eq htext, ofJson?_toJson h]
  refine ⟨hread, fun q hq => ?_⟩
  rw [hread] at hq
  have hsame : q = p := by
    by_cases hfit : p.toJson.nesting ≤ depth
    · rw [if_pos hfit] at hq
      exact (Option.some.inj hq).symm
    · rw [if_neg hfit] at hq
      cases hq
  rw [hsame]
  exact ⟨rfl, rfl⟩

end Program

end Dam
