import Dam.Json.Reader

/-!
# The tokens of a JSON value

Tokens are written by appending to an array, and read by a machine that keeps a stack of what
is open. Here the array is put aside: the tokens of a value are given by equations, one for
each kind of value. Along these equations the machine reads the value back, whatever is
open around it.
-/

namespace Dam.Json

/-! ## Equations for the tokens -/

/-- The tokens of items; those behind other items begin with a comma. -/
def itemTokens (first : Bool) (vs : List Json) : List Token := (pushItems #[] first vs).toList

/-- The tokens of members; those behind other members begin with a comma. -/
def memberTokens (first : Bool) (ms : List (String × Json)) : List Token :=
  (pushMembers #[] first ms).toList

/-- What stands between what was written and the next item or member. -/
def separator (first : Bool) : List Token := if first then [] else [.comma]

theorem toList_separate (done : Array Token) (first : Bool) :
    (if first then done else done.push .comma).toList = done.toList ++ separator first := by
  cases first with
  | true => exact (List.append_nil _).symm
  | false => exact Array.toList_push

mutual

theorem toList_pushTokens (done : Array Token) :
    ∀ v : Json, (pushTokens done v).toList = done.toList ++ v.tokens
  | .null | .bool _ | .number _ | .string _ | .illFormed => by
      rw [tokens, pushTokens, pushTokens, Array.toList_push, Array.toList_push]
      rfl
  | .array vs => by
      rw [tokens, pushTokens, pushTokens, Array.toList_push, Array.toList_push,
        toList_pushItems, toList_pushItems (#[].push .leftBracket), Array.toList_push,
        Array.toList_push]
      simp only [List.append_assoc, List.nil_append]
  | .object ms => by
      rw [tokens, pushTokens, pushTokens, Array.toList_push, Array.toList_push,
        toList_pushMembers, toList_pushMembers (#[].push .leftBrace), Array.toList_push,
        Array.toList_push]
      simp only [List.append_assoc, List.nil_append]

theorem toList_pushItems (done : Array Token) (first : Bool) :
    ∀ vs : List Json, (pushItems done first vs).toList = done.toList ++ itemTokens first vs
  | [] => by
      rw [itemTokens, pushItems, pushItems]
      exact (List.append_nil _).symm
  | v :: vs => by
      rw [itemTokens, pushItems, pushItems, toList_pushItems, toList_pushTokens,
        toList_separate, toList_pushItems (pushTokens _ v), toList_pushTokens _ v,
        toList_separate]
      simp only [List.append_assoc, List.nil_append]

theorem toList_pushMembers (done : Array Token) (first : Bool) :
    ∀ ms : List (String × Json),
      (pushMembers done first ms).toList = done.toList ++ memberTokens first ms
  | [] => by
      rw [memberTokens, pushMembers, pushMembers]
      exact (List.append_nil _).symm
  | (k, v) :: ms => by
      rw [memberTokens, pushMembers, pushMembers, toList_pushMembers, toList_pushTokens,
        Array.toList_push, Array.toList_push, toList_separate,
        toList_pushMembers (pushTokens _ v), toList_pushTokens _ v, Array.toList_push,
        Array.toList_push, toList_separate]
      simp only [List.append_assoc, List.nil_append]

end

theorem tokens_array (vs : List Json) :
    (array vs).tokens = .leftBracket :: (itemTokens true vs ++ [.rightBracket]) := by
  rw [tokens, pushTokens, Array.toList_push, toList_pushItems]
  rfl

theorem tokens_object (ms : List (String × Json)) :
    (object ms).tokens = .leftBrace :: (memberTokens true ms ++ [.rightBrace]) := by
  rw [tokens, pushTokens, Array.toList_push, toList_pushMembers]
  rfl

@[simp] theorem itemTokens_nil (first : Bool) : itemTokens first [] = [] := by
  rw [itemTokens, pushItems]

theorem itemTokens_cons (first : Bool) (v : Json) (vs : List Json) :
    itemTokens first (v :: vs) = separator first ++ (v.tokens ++ itemTokens false vs) := by
  rw [itemTokens, pushItems, toList_pushItems, toList_pushTokens, toList_separate,
    List.append_assoc]
  rfl

@[simp] theorem memberTokens_nil (first : Bool) : memberTokens first [] = [] := by
  rw [memberTokens, pushMembers]

theorem memberTokens_cons (first : Bool) (k : String) (v : Json) (ms : List (String × Json)) :
    memberTokens first ((k, v) :: ms) =
      separator first ++ (.string k :: .colon :: (v.tokens ++ memberTokens false ms)) := by
  rw [memberTokens, pushMembers, toList_pushMembers, toList_pushTokens, Array.toList_push,
    Array.toList_push, toList_separate]
  simp only [List.append_assoc, List.cons_append, List.nil_append]

/-! ## Reading tokens -/

/-- No value begins with a closing bracket, so an array is empty only if it is closed at once. -/
theorem step_firstItem {t : Token} (h : t ≠ .rightBracket) (outer : List Frame) :
    Reading.step (.firstItem outer) t = Reading.step (.value (.items [] :: outer)) t := by
  cases t with
  | rightBracket => exact absurd rfl h
  | _ => rfl

theorem tokens_eq_cons (v : Json) : ∃ t ts, v.tokens = t :: ts ∧ t ≠ .rightBracket := by
  cases v with
  | array vs => exact ⟨_, _, tokens_array vs, Token.noConfusion⟩
  | object ms => exact ⟨_, _, tokens_object ms, Token.noConfusion⟩
  | _ => exact ⟨_, [], rfl, Token.noConfusion⟩

theorem read_firstItem (v : Json) (outer : List Frame) :
    v.tokens.foldlM Reading.step (.firstItem outer) =
      v.tokens.foldlM Reading.step (.value (.items [] :: outer)) := by
  obtain ⟨t, ts, hv, ht⟩ := v.tokens_eq_cons
  rw [hv, List.foldlM_cons, List.foldlM_cons, step_firstItem ht]

/-- Members that were read have names. -/
def named (ms : List (String × Json)) : List (Option String × Json) :=
  ms.map fun m => (some m.1, m.2)

/-- A row is mapped without failure if each of its elements is. -/
theorem mapM_map_eq_some {α β γ : Type} {f : α → β} {g : β → Option γ} {h : α → γ} {l : List α}
    (hg : ∀ a ∈ l, g (f a) = some (h a)) : (l.map f).mapM g = some (l.map h) := by
  induction l with
  | nil => rfl
  | cons a l ih =>
      rw [List.map_cons, List.mapM_cons, hg a List.mem_cons_self,
        ih fun a' ha' => hg a' (List.mem_cons_of_mem _ ha')]
      rfl

theorem closeObject_named (ms : List (String × Json)) :
    closeObject (named ms) = object ms.reverse := by
  have hnames : (named ms).reverse.mapM (fun m => m.1.map fun k => (k, m.2)) =
      some (ms.reverse.map id) := by
    rw [named, ← List.map_reverse]
    exact mapM_map_eq_some fun m _ => rfl
  unfold closeObject
  rw [hnames, List.map_id]

mutual

/-- **Tokens are read as the value they are the tokens of**, whatever is open around it. -/
theorem read_tokens (outer : List Frame) :
    ∀ v : Json, v.tokens.foldlM Reading.step (.value outer) = some (.complete v outer)
  | .null | .bool _ | .number _ | .string _ | .illFormed => rfl
  | .array [] => by
      rw [tokens_array, itemTokens_nil]
      rfl
  | .array (v :: vs) => by
      rw [tokens_array, itemTokens_cons, List.foldlM_cons]
      show (v.tokens ++ itemTokens false vs ++ [Token.rightBracket]).foldlM Reading.step
        (.firstItem outer) = _
      rw [List.append_assoc, List.foldlM_append, read_firstItem, read_tokens _ v]
      exact read_items v [] outer vs
  | .object [] => by
      rw [tokens_object, memberTokens_nil]
      rfl
  | .object ((k, v) :: ms) => by
      rw [tokens_object, memberTokens_cons, List.foldlM_cons]
      show (v.tokens ++ memberTokens false ms ++ [Token.rightBrace]).foldlM Reading.step
        (.value (.members (named []) (some k) :: outer)) = _
      rw [List.append_assoc, List.foldlM_append, read_tokens _ v]
      exact read_members v k [] outer ms

/-- The items behind a first one, and the end of the array. -/
theorem read_items (v : Json) (done : List Json) (outer : List Frame) :
    ∀ vs : List Json,
      (itemTokens false vs ++ [Token.rightBracket]).foldlM Reading.step
          (.complete v (.items done :: outer)) =
        some (.complete (.array (done.reverse ++ v :: vs)) outer)
  | [] => by
      rw [itemTokens_nil]
      show some (Reading.complete (.array (v :: done).reverse) outer) = _
      rw [List.reverse_cons]
  | w :: ws => by
      rw [itemTokens_cons]
      show (w.tokens ++ itemTokens false ws ++ [Token.rightBracket]).foldlM Reading.step
        (.value (.items (v :: done) :: outer)) = _
      rw [List.append_assoc, List.foldlM_append, read_tokens _ w]
      refine (read_items w (v :: done) outer ws).trans ?_
      rw [List.reverse_cons, List.append_assoc]
      rfl

/-- The members behind a first one, and the end of the object. -/
theorem read_members (v : Json) (k : String) (done : List (String × Json)) (outer : List Frame) :
    ∀ ms : List (String × Json),
      (memberTokens false ms ++ [Token.rightBrace]).foldlM Reading.step
          (.complete v (.members (named done) (some k) :: outer)) =
        some (.complete (.object (done.reverse ++ (k, v) :: ms)) outer)
  | [] => by
      rw [memberTokens_nil]
      show some (Reading.complete (closeObject (named ((k, v) :: done))) outer) = _
      rw [closeObject_named, List.reverse_cons]
  | (l, w) :: ms => by
      rw [memberTokens_cons]
      show (w.tokens ++ memberTokens false ms ++ [Token.rightBrace]).foldlM Reading.step
        (.value (.members (named ((k, v) :: done)) (some l) :: outer)) = _
      rw [List.append_assoc, List.foldlM_append, read_tokens _ w]
      refine (read_members w l ((k, v) :: done) outer ms).trans ?_
      rw [List.reverse_cons, List.append_assoc]
      rfl

end

theorem ofTokens?_tokens (v : Json) : ofTokens? v.tokens = some v := by
  unfold ofTokens?
  rw [read_tokens [] v]
  rfl

end Dam.Json
