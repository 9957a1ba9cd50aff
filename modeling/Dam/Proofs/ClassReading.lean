import Dam.Proofs.CodeLines
import Dam.Proofs.SlotUse
import Dam.Text.Split

/-!
# Reading class text

The text of a class can be read back. No line of code has a line feed in it, whatever the
strings of the program are, so the text behind the header of the `main` method falls into
lines again: two limits, a line for each item, and an end that is always the same. The
lines give the items up to what they move. The scanner is opened in front of the code or
nowhere, so its slot can be read off the first lines, and an object is moved there and
only there.
-/

namespace Dam

/-! ## Items of finished code -/

/-- Whether an instruction occurs in the code of phrases. Constants, slots, targets are free. -/
def Instr.isCommon : Instr → Bool
  | iconst n => n < 2
  | new _ | invokeSpecial _ => false
  | getStatic f d => getStatic f d == Gen.systemOut
  | invokeVirtual m => Gen.methods.contains m
  | _ => true

/-- Whether an item occurs in the code of phrases. -/
def Item.isCommon : Item → Bool
  | label _ => true
  | op i => i.isCommon

theorem Literal.isCommon_push {v : Literal} {i : Instr} {τ : ValueType}
    (h : v.push? = some (i, τ)) : i.isCommon = true := by
  cases v with
  | null => cases h
  | number | string => cases h; rfl
  | bool b => cases h; cases b <;> rfl

theorem Gen.isCommon_arithInstr {op : ArithOp} {τ : ValueType} {i : Instr}
    (h : Gen.arithInstr? op τ = some i) : i.isCommon = true := by
  rcases Gen.arithInstr?_cases h with ⟨_, rfl⟩ | ⟨_, rfl⟩
  · rfl
  · decide

theorem Gen.isCommon_println (τ : ValueType) :
    (Instr.invokeVirtual (Gen.println τ)).isCommon = true := by
  cases τ <;> decide

theorem Comparison.isCommon_branch (k : Comparison) (t : Label) (τ : ValueType) :
    (k.branch t τ).all Item.isCommon = true := by
  cases τ with
  | numeric => cases k <;> rfl
  | string => exact (by decide : (Instr.invokeVirtual Gen.compareTo).isCommon = true)
  | bool => rfl

theorem ExprCode.isCommon {e : Expr} {pos : ExprPosition} {s s' : Scope}
    {ts : List (Nat × ValueType)} {c : List Item} (h : ExprCode e pos s s' ts c) :
    c.all Item.isCommon = true := by
  induction h with
  | literal hv => simp [Item.isCommon, Literal.isCommon_push hv]
  | var _ => rfl
  | not _ ih => simp [ih, Item.isCommon, Instr.isCommon]
  | neg _ ih => simp [ih, Item.isCommon, Instr.isCommon]
  | arith _ _ hi ih₁ ih₂ => simp [ih₁, ih₂, Item.isCommon, Gen.isCommon_arithInstr hi]
  | materialize _ _ ih => simp [ih, materializeCode, Item.isCommon, Instr.isCommon]
  | grouping _ ih => exact ih
  | assign _ _ ih => simp [ih, Item.isCommon, Instr.isCommon]
  | compare _ _ ih₁ ih₂ => simp [ih₁, ih₂, Comparison.isCommon_branch]
  | and _ _ ih₁ ih₂ => simp [ih₁, ih₂]
  | or _ _ ih₁ ih₂ => simp [ih₁, ih₂, Item.isCommon, Instr.isCommon]
  | groupingTest _ ih => exact ih
  | branch _ _ ih => simp [ih, Item.isCommon, Instr.isCommon]

theorem StmtCode.isCommon {st : Stmt} {s s' : Scope} {ts : List (Nat × ValueType)}
    {c : List Item} (h : StmtCode st s s' ts c) : c.all Item.isCommon = true := by
  induction h with
  | declare he _ => simp [he.isCommon, Item.isCommon, Instr.isCommon]
  | print he =>
      have hout : Gen.systemOut.isCommon = true := by decide
      simp [he.isCommon, hout, Item.isCommon, Gen.isCommon_println]
  | read _ _ =>
      have hread : Gen.nextLine ∈ Gen.methods := by decide
      simp [hread, Item.isCommon, Instr.isCommon]
  | ifThen he _ ih => simp [he.isCommon, ih, Item.isCommon]
  | ifElse he _ _ ih₁ ih₂ => simp [he.isCommon, ih₁, ih₂, Item.isCommon, Instr.isCommon]
  | whileDo he _ ih => simp [he.isCommon, ih, Item.isCommon, Instr.isCommon]
  | nil => rfl
  | cons _ _ ih₁ ih₂ => simp [ih₁, ih₂]
  | store he _ => simp [he.isCommon, Item.isCommon, Instr.isCommon]
  | drop _ he => simp [he.isCommon, Item.isCommon, Instr.isCommon]

theorem Instr.inUse_of_isCommon {i : Instr} (h : i.isCommon = true)
    (ht : ∀ l, i.target? = some l → l.Placed) : i.InUse := by
  cases i with
  | iconst n => exact (of_decide_eq_true h : n < 2)
  | ifZero _ l | ifInts _ l | goto l => exact ht l rfl
  | new | invokeSpecial => cases h
  | getStatic f d => exact List.mem_cons.mpr (.inl (beq_iff_eq.mp h))
  | invokeVirtual m => exact List.contains_iff_mem.mp h
  | _ => trivial

theorem Gen.inUse_opening {o : Option Nat} {i : Instr} (h : i ∈ opening o) : i.InUse := by
  cases o with
  | none => cases h
  | some k =>
      simp only [opening, openScanner, List.mem_cons, List.not_mem_nil, or_false] at h
      rcases h with rfl | rfl | rfl | rfl | rfl
      · rfl
      · trivial
      · exact (by decide : systemIn ∈ fields)
      · exact (by decide : scannerInit ∈ methods)
      · trivial

namespace Generator

variable {p : Program} {g : Generator} (hg : empty.generate p = (.ok (), g))
include hg

theorem isCommon_of_generate {x : Item} (hx : x ∈ g.items) : x.isCommon = true := by
  obtain ⟨ts, hcode, _⟩ := generate_code hg
  exact List.all_eq_true.mp hcode.isCommon x hx

theorem placed_of_labels {l : Label} (hl : l ∈ Code.labels g.items) : l.Placed := by
  obtain ⟨ts, hcode, _⟩ := generate_code hg
  obtain ⟨stem, hstem, n, _, _, rfl⟩ := hcode.linked.mem l hl
  exact ⟨stem, hstem, n, rfl⟩

theorem placed_of_targets {l : Label} (hl : l ∈ Code.targets g.items) : l.Placed := by
  obtain ⟨ts, hcode, _⟩ := generate_code hg
  rcases hcode.linked.targets l hl with hl | hl
  · exact placed_of_labels hg hl
  · cases hl

/-- All items of finished code are of the vocabulary. -/
theorem finished_inUse {x : Item} (hx : x ∈ g.finishedItems) : x.InUse := by
  rw [finishedItems_eq_opening, List.mem_append, List.mem_map] at hx
  rcases hx with ⟨i, hi, rfl⟩ | hx
  · exact Gen.inUse_opening hi
  · cases x with
    | label l => exact placed_of_labels hg (Code.mem_labels.mpr hx)
    | op i =>
        refine Instr.inUse_of_isCommon (isCommon_of_generate hg hx) fun l hl => ?_
        refine placed_of_targets hg (List.mem_filterMap.mpr ⟨i, Code.mem_instrs.mpr hx, hl⟩)

end Generator

/-! ## Lines of a text -/

/-- A piece without the separator ends at the separator. -/
theorem splitAtEach_append {separator : Char} {piece : List Char} (h : separator ∉ piece)
    (rest : List Char) :
    splitAtEach separator (piece ++ separator :: rest) = piece :: splitAtEach separator rest := by
  induction piece with
  | nil => exact if_pos rfl
  | cons c piece ih =>
      rw [List.mem_cons, not_or] at h
      rw [List.cons_append, splitAtEach, if_neg (Ne.symm h.1), ih h.2]

namespace Assembly

theorem toList_joinLines (lines : List String) :
    (joinLines lines).toList = lines.flatMap fun l => l.toList ++ ['\n'] := by
  have hacc : ∀ acc : String, (lines.foldl (fun acc l => (acc ++ l).push '\n') acc).toList =
      acc.toList ++ lines.flatMap fun l => l.toList ++ ['\n'] := by
    induction lines with
    | nil => simp
    | cons l lines ih =>
        intro acc
        rw [List.foldl_cons, ih, List.flatMap_cons]
        simp
  exact hacc ""

theorem joinLines_append (lines more : List String) :
    joinLines (lines ++ more) = joinLines lines ++ joinLines more := by
  rw [← String.toList_inj, String.toList_append, toList_joinLines, toList_joinLines,
    toList_joinLines, List.flatMap_append]

/-- Lines without a line feed in them are found again, and nothing is behind the last one. -/
theorem splitAtEach_joinLines {lines : List String} (h : ∀ l ∈ lines, '\n' ∉ l.toList) :
    splitAtEach '\n' (joinLines lines).toList = lines.map String.toList ++ [[]] := by
  rw [toList_joinLines]
  induction lines with
  | nil => rfl
  | cons l lines ih =>
      rw [List.forall_mem_cons] at h
      rw [List.flatMap_cons, List.append_assoc]
      exact (splitAtEach_append h.1 _).trans (congrArg _ (ih h.2))

/-! ## The body of the main method -/

/-- The line that begins the `main` method. -/
def mainHeader : String := ".method public static main([Ljava/lang/String;)V"

/-- The lines behind the header of the `main` method. -/
def bodyLines (a : Assembly) : List String :=
  ["\t.limit stack " ++ toString a.maxStack, "\t.limit locals " ++ toString a.maxLocals] ++
    a.items.map Item.line ++ ["\treturn", ".end method"]

/-- The text behind the header of the `main` method. -/
def body (a : Assembly) : String := joinLines a.bodyLines

variable {a b : Assembly}

/-- The header and the text behind it make up the class. -/
theorem classText_eq (a : Assembly) (className : String) (sourceFile : Option String) :
    a.classText className sourceFile =
      joinLines (headerLines className sourceFile ++ [mainHeader]) ++ a.body := by
  have hmain : a.mainLines = [mainHeader] ++ a.bodyLines := rfl
  unfold classText
  rw [hmain, ← List.append_assoc, joinLines_append]
  rfl

theorem splitAtEach_body (h : ∀ x ∈ a.items, x.InUse) :
    splitAtEach '\n' a.body.toList = a.bodyLines.map String.toList ++ [[]] := by
  have hlimit : ∀ (text : String) (n : Nat), '\n' ∉ text.toList →
      '\n' ∉ (text ++ toString n).toList := by
    intro text n htext
    rw [String.toList_append, List.mem_append, not_or]
    exact ⟨htext, not_mem_toString n (by decide)⟩
  refine splitAtEach_joinLines ?_
  unfold bodyLines
  simp only [List.forall_mem_append, List.forall_mem_cons, List.forall_mem_map]
  refine ⟨⟨⟨hlimit _ _ (by decide), hlimit _ _ (by decide), by simp⟩, ?_⟩, by decide, by decide,
    by simp⟩
  intro x hx
  exact Item.newline_not_mem_line (h x hx)

/-- The text gives the limits and the lines of the items. -/
theorem lines_of_body (ha : ∀ x ∈ a.items, x.InUse) (hb : ∀ x ∈ b.items, x.InUse)
    (h : a.body = b.body) : a.maxStack = b.maxStack ∧ a.maxLocals = b.maxLocals ∧
      a.items.map Item.line = b.items.map Item.line := by
  have hlines : a.bodyLines.map String.toList = b.bodyLines.map String.toList := by
    have hsplit := splitAtEach_body ha
    rw [h, splitAtEach_body hb] at hsplit
    exact (List.append_cancel_right hsplit).symm
  have hbody : a.bodyLines = b.bodyLines :=
    List.map_injective_iff.mpr (fun _ _ => String.toList_inj.mp) hlines
  obtain ⟨hstack, hrest⟩ := List.cons.inj (List.append_cancel_right hbody)
  obtain ⟨hlocals, hitems⟩ := List.cons.inj hrest
  have hnumber : ∀ {text : String} {m n : Nat}, text ++ toString m = text ++ toString n → m = n := by
    intro text m n hmn
    rw [← String.toList_inj, String.toList_append, String.toList_append] at hmn
    exact Nat.repr_inj.mp (String.toList_inj.mp (List.append_cancel_left hmn))
  exact ⟨hnumber hstack, hnumber hlocals, hitems⟩

end Assembly

/-! ## The items behind the lines -/

/-- The item that moves an object if its slot is the scanner's. -/
def Item.withScanner (scanner : Option Nat) : Item → Item
  | op (.load .string k) => if scanner = some k then op (.loadRef k) else op (.load .string k)
  | x => x

/-- The lines of two pieces of code are the same only if the items are, up to what they move. -/
theorem Item.map_asValue_eq_of_lines {c c' : List Item} (hc : ∀ x ∈ c, x.InUse)
    (hc' : ∀ x ∈ c', x.InUse) (hnan : ∀ x ∈ c, x.pushesNaN = false)
    (hnan' : ∀ x ∈ c', x.pushesNaN = false) (h : c.map line = c'.map line) :
    c.map asValue = c'.map asValue := by
  induction c generalizing c' with
  | nil =>
      cases c' with
      | nil => rfl
      | cons y c' => cases h
  | cons x c ih =>
      cases c' with
      | nil => cases h
      | cons y c' =>
          rw [List.forall_mem_cons] at hc hc' hnan hnan'
          rw [List.map_cons, List.map_cons, List.cons.injEq] at h
          rw [List.map_cons, List.map_cons,
            asValue_eq_of_line hc.1 hc'.1 hnan.1 hnan'.1 h.1, ih hc.2 hc'.2 hnan.2 hnan'.2 h.2]

namespace Generator

variable {p q : Program} {g g' : Generator}

/-- The scanner's slot tells what the items of the program's own code move. -/
theorem withScanner_asValue (hg : empty.generate p = (.ok (), g)) {x : Item} (hx : x ∈ g.items) :
    x.asValue.withScanner g.frame.scanner = x := by
  have hserves := serves_of_generate hg x hx
  cases x with
  | label l => rfl
  | op i =>
      cases i with
      | load τ k =>
          cases τ with
          | string =>
              obtain ⟨y, hy⟩ := hserves
              exact if_neg fun hk => (wellFormed_of_generate hg).scanner_ne y k hk hy
          | numeric | bool => rfl
      | loadRef k => exact if_pos hserves
      | storeRef k => exact absurd hserves id
      | _ => rfl

theorem items_eq_map (hg : empty.generate p = (.ok (), g)) :
    (g.items.map Item.asValue).map (Item.withScanner g.frame.scanner) = g.items := by
  rw [List.map_map]
  exact (List.map_congr_left fun x hx => withScanner_asValue hg hx).trans (List.map_id _)

/-- The program's own code makes no object. -/
theorem not_opens (hg : empty.generate p = (.ok (), g)) (className : String) (c : List Item) :
    g.items.map Item.asValue ≠ .op (.new className) :: c := by
  intro h
  have hmem : .op (.new className) ∈ g.items.map Item.asValue := h ▸ List.mem_cons_self
  obtain ⟨x, hx, hnew⟩ := List.mem_map.mp hmem
  rcases Item.asValue_cases x with hself | ⟨k, rfl⟩ | ⟨k, rfl⟩
  · rw [hself] at hnew
    subst hnew
    cases isCommon_of_generate hg hx
  · cases hnew
  · cases hnew

/-- The scanner's slot can be read off the first items. -/
theorem scanner_eq_of_asValue (hg : empty.generate p = (.ok (), g))
    (hg' : empty.generate q = (.ok (), g'))
    (h : g.finishedItems.map Item.asValue = g'.finishedItems.map Item.asValue) :
    g.frame.scanner = g'.frame.scanner ∧
      g.items.map Item.asValue = g'.items.map Item.asValue := by
  rw [finishedItems_eq_opening, finishedItems_eq_opening, List.map_append, List.map_append] at h
  -- only the instructions in front make an object, so both programs have a scanner or none has
  cases hs : g.frame.scanner with
  | none =>
      cases hs' : g'.frame.scanner with
      | none =>
          rw [hs, hs'] at h
          exact ⟨rfl, h⟩
      | some k' =>
          rw [hs, hs'] at h
          exact absurd h (not_opens hg _ _)
  | some k =>
      cases hs' : g'.frame.scanner with
      | none =>
          rw [hs, hs'] at h
          exact absurd h.symm (not_opens hg' _ _)
      | some k' =>
          rw [hs, hs'] at h
          obtain ⟨hopening, hitems⟩ := List.append_inj h rfl
          have hslot : k = k' := by
            simpa [Gen.opening, Gen.openScanner, Item.asValue, Instr.asValue] using hopening
          exact ⟨congrArg some hslot, hitems⟩

/-- Finished code is determined by its items up to what they move. -/
theorem finishedItems_eq_of_asValue (hg : empty.generate p = (.ok (), g))
    (hg' : empty.generate q = (.ok (), g'))
    (h : g.finishedItems.map Item.asValue = g'.finishedItems.map Item.asValue) :
    g.finishedItems = g'.finishedItems := by
  obtain ⟨hscanner, hitems⟩ := scanner_eq_of_asValue hg hg' h
  have hcode : g.items = g'.items := by
    rw [← items_eq_map hg, hitems, hscanner, items_eq_map hg']
  rw [finishedItems_eq_opening, finishedItems_eq_opening, hscanner, hcode]

end Generator

/-! ## The text determines the assembly -/

namespace Assembly

variable {p q : Program} {a b : Assembly}

theorem inUse_of_assemble (ha : p.assemble = .ok a) : ∀ x ∈ a.items, x.InUse := by
  obtain ⟨g, hg, hfinish⟩ := Program.assemble_eq_ok.mp ha
  intro x hx
  rw [Generator.items_of_finish hfinish] at hx
  exact Generator.finished_inUse hg hx

/-- Assemblies with the same text behind the header are the same. -/
theorem eq_of_body (ha : p.assemble = .ok a) (hb : q.assemble = .ok b)
    (hnan : ∀ x ∈ a.items, x.pushesNaN = false) (hnan' : ∀ x ∈ b.items, x.pushesNaN = false)
    (h : a.body = b.body) : a = b := by
  have hin := inUse_of_assemble ha
  have hin' := inUse_of_assemble hb
  obtain ⟨hstack, hlocals, hlines⟩ := lines_of_body hin hin' h
  have hvalues := Item.map_asValue_eq_of_lines hin hin' hnan hnan' hlines
  obtain ⟨g, hg, hfinish⟩ := Program.assemble_eq_ok.mp ha
  obtain ⟨g', hg', hfinish'⟩ := Program.assemble_eq_ok.mp hb
  rw [Generator.items_of_finish hfinish, Generator.items_of_finish hfinish'] at hvalues
  have hitems : a.items = b.items := by
    rw [Generator.items_of_finish hfinish, Generator.items_of_finish hfinish']
    exact Generator.finishedItems_eq_of_asValue hg hg' hvalues
  cases a
  cases b
  cases hstack
  cases hlocals
  cases hitems
  rfl

/--
**Class text can be read back.** Behind the header of the `main` method stand the limits, the
items and the end, each in a line of its own. Two items of the vocabulary, which finished code
does not leave, have the same line only if they are the same or move a string and an object in
the same slot. Even so, the text behind the header determines the assembly.
-/
theorem classText_legible (ha : p.assemble = .ok a) (hb : q.assemble = .ok b) :
    (∀ className sourceFile, a.classText className sourceFile =
      joinLines (headerLines className sourceFile ++ [mainHeader]) ++ a.body) ∧
    splitAtEach '\n' a.body.toList = a.bodyLines.map String.toList ++ [[]] ∧
    (∀ x ∈ a.items, x.InUse) ∧
    (∀ x y : Item, x.InUse → y.InUse → x.pushesNaN = false → y.pushesNaN = false →
      (x.line = y.line ↔ x = y ∨ Item.Twins x y ∨ Item.Twins y x)) ∧
    ((∀ x ∈ a.items, x.pushesNaN = false) → (∀ y ∈ b.items, y.pushesNaN = false) →
      a.body = b.body → a = b) := by
  have hin := inUse_of_assemble ha
  refine ⟨classText_eq a, splitAtEach_body hin, hin, ?_, eq_of_body ha hb⟩
  intro x y hx hy hnan hnan'
  exact Item.line_eq_iff hx hy hnan hnan'

end Assembly

/-- The program that prints a string. -/
def Program.printing (s : String) : Program :=
  ⟨[.print default (.literal ⟨0, default⟩ (.string s))], default⟩

/-- The assembly of the program that prints a string. -/
def Assembly.printing (s : String) : Assembly :=
  ⟨[.op Gen.systemOut, .op (.ldcString s), .op (.invokeVirtual (Gen.println .string))], 2, 1⟩

/-- A string that looks like the end of the method is not taken for it, nor for its escapes. -/
theorem Assembly.classText_legible_breaks :
    let a := printing "\n\treturn\n.end method\n"
    let b := printing "\\n\\treturn\\n.end method\\n"
    splitAtEach '\n' a.body.toList = a.bodyLines.map String.toList ++ [[]] ∧
      a.bodyLines.length = 7 ∧ a.body ≠ b.body ∧
      (Item.op (.ldcString "\n\treturn\n.end method\n")).line ≠
        (Item.op (.ldcString "\\n\\treturn\\n.end method\\n")).line := by
  intro a b
  have ha : (Program.printing "\n\treturn\n.end method\n").assemble = .ok a := by decide +kernel
  have hb : (Program.printing "\\n\\treturn\\n.end method\\n").assemble = .ok b := by
    decide +kernel
  obtain ⟨_, hsplit, _, hlines, hbody⟩ := classText_legible ha hb
  have hstrings : ∀ s t : String, (Item.op (.ldcString s)).line = (Item.op (.ldcString t)).line →
      s = t := by
    intro s t h
    have hsame := hlines (.op (.ldcString s)) (.op (.ldcString t)) trivial trivial rfl rfl
    rcases hsame.mp h with heq | ⟨k, heq⟩ | ⟨k, heq⟩
    · cases heq
      rfl
    · rcases heq with ⟨⟨⟩, _⟩ | ⟨⟨⟩, _⟩
    · rcases heq with ⟨⟨⟩, _⟩ | ⟨⟨⟩, _⟩
  refine ⟨hsplit, rfl, fun h => ?_, fun h => ?_⟩
  · exact absurd (hbody (by decide) (by decide) h) (by decide)
  · exact absurd (hstrings _ _ h) (by decide)

end Dam
