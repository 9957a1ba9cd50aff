import Dam.Proofs.Relocation
import Dam.Proofs.Shapes

/-!
# Parsing does not look at places

The parser merges spans all the time and decides nothing by them. Here is this as an
equation: parsing tokens without their places gives what parsing the tokens gives,
without its places, faults included. Two runs on tokens of the same kinds are then
compared through the one run on those kinds.

To have no place is a change of places like any other, so this is a case of
`parse_relocate`.
-/

namespace Dam

/-- The token without its place. -/
def Token.unplaced (t : Token) : Token := ⟨t.kind, .synthetic⟩

/-- The fault without its place. -/
def ParseError.unplaced (e : ParseError) : ParseError := ⟨e.fault, .synthetic⟩

theorem relocation_synthetic : Relocation fun _ => .synthetic := ⟨rfl, fun _ _ => rfl⟩

theorem Expr.relocate_synthetic (e : Expr) : e.relocate (fun _ => .synthetic) = e.unplaced := by
  induction e with
  | literal | var => rfl
  | unary _ _ _ ih | grouping _ _ ih | assign _ _ _ ih =>
      rw [relocate, ih]
      rfl
  | binary _ _ _ _ ihl ihr | logical _ _ _ _ ihl ihr =>
      rw [relocate, ihl, ihr]
      rfl

namespace Stmt

mutual

theorem relocate_synthetic : ∀ st : Stmt, st.relocate (fun _ => .synthetic) = st.unplaced
  | declare _ _ e | print _ e | expression _ e => by
      rw [relocate, e.relocate_synthetic]
      rfl
  | read _ _ => rfl
  | ifThen _ e yes => by
      rw [relocate, e.relocate_synthetic, relocate_synthetic yes]
      rfl
  | ifElse _ e yes no => by
      rw [relocate, e.relocate_synthetic, relocate_synthetic yes, relocate_synthetic no]
      rfl
  | whileDo _ e body => by
      rw [relocate, e.relocate_synthetic, relocate_synthetic body]
      rfl
  | block _ ss => by
      rw [relocate, relocateAll_synthetic ss]
      rfl

theorem relocateAll_synthetic : ∀ ss : List Stmt,
    relocateAll (fun _ => .synthetic) ss = bareAll (fun i => i) ss
  | [] => rfl
  | st :: sts => by rw [relocateAll, relocate_synthetic st, relocateAll_synthetic sts, bareAll]

end

end Stmt

/-- Without places, the tokens form the program without places, or have the same faults without
places. -/
theorem parse_unplaced (tokens : List Token) :
    parse (tokens.map Token.unplaced) =
      ((parse tokens).map Program.unplaced).mapError (List.map ParseError.unplaced) := by
  have hfront : front (tokens.map Token.unplaced) =
      (front tokens).map (Token.relocate fun _ => .synthetic) := by
    unfold front
    rw [List.takeWhile_map]
    rfl
  have hend : endPlace (tokens.map Token.unplaced) = .synthetic := by
    unfold endPlace
    rw [List.find?_map]
    cases List.find? _ tokens <;> rfl
  have hprogram : Program.relocate (fun _ => .synthetic) = Program.unplaced := by
    funext p
    rw [Program.relocate, funext Stmt.relocate_synthetic]
    rfl
  rw [parse_relocate relocation_synthetic hfront hend, hprogram]
  rfl

end Dam
