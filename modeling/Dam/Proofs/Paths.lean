import Dam.FileTree

/-!
# Spellings of paths

What can be said of a path without a look at any tree: which name it ends in, what is left of it
without its last component, and which place it has if no name is a link (`Path.locate`).

A path and those above it (`Path.ancestors`) are spellings, and `..` may stand anywhere in them.
Only if it stands in front (`Path.Direct`) do they follow the directories around a place
(`Path.locate_suffix_of_mem_ancestors`).
-/

namespace Dam

/-! ## Names -/

namespace Path

theorem isAbsolute_iff {p : Path} :
    p.isAbsolute = true ↔ ∃ s rest, p.segments = "" :: s :: rest := by
  unfold isAbsolute
  split
  · rename_i s rest hsegments
    exact ⟨fun _ => ⟨s, rest, hsegments⟩, fun _ => rfl⟩
  · rename_i hother
    refine ⟨fun h => absurd h (by simp), ?_⟩
    rintro ⟨s, rest, hsegments⟩
    exact absurd hsegments (hother s rest)

/-- A name: it leads down from where it is. -/
def IsName (s : String) : Prop := isTrivial s = false ∧ s ≠ ".."

theorem move_name {s : String} (h : IsName s) (l : Location) : move l s = s :: l := by
  rw [move, if_neg (by simp [h.1]), if_neg h.2]

theorem lead_append_body (p : Path) : p.lead ++ p.body = p.segments := by
  unfold body lead
  split
  · rename_i hsegments
    rw [hsegments]
    rfl
  · rename_i hsegments
    rw [hsegments]
    rfl
  · rfl

theorem segments_ofText {s : String} (h : '/' ∉ s.toList) : (ofText s).segments = [s] := by
  have hsplit (cs : List Char) (hcs : '/' ∉ cs) : splitAtEach '/' cs = [cs] := by
    induction cs with
    | nil => rfl
    | cons c cs ih =>
        rw [List.mem_cons, not_or] at hcs
        rw [splitAtEach, if_neg (Ne.symm hcs.1), ih hcs.2]
  unfold ofText
  rw [hsplit _ h, List.map_cons, List.map_nil, String.ofList_toList]

section JoinName

variable {p q : Path} {name : String}

/-- A slash at the end of the directory is not doubled. -/
theorem segments_join_name (hq : q.segments = [name]) :
    ∃ front, (p.join q).segments = front ++ [name] ∧
      (p.segments = front ++ [""] ∨ p.segments = front ∧ front.getLast? ≠ some "") := by
  have hrelative : q.isAbsolute = false := by
    rw [Bool.eq_false_iff, Ne, isAbsolute_iff, hq]
    simp
  unfold join
  rw [if_neg (by simp [hrelative]), hq]
  split
  · rename_i hlast
    obtain ⟨front, hfront⟩ := List.getLast?_eq_some_iff.mp hlast
    exact ⟨front, by rw [hfront, List.dropLast_concat], .inl hfront⟩
  · rename_i hlast
    exact ⟨p.segments, rfl, .inr ⟨rfl, hlast⟩⟩

theorem isAbsolute_join_name (hq : q.segments = [name]) :
    (p.join q).isAbsolute = p.isAbsolute := by
  obtain ⟨front, hfront, hp⟩ := segments_join_name (p := p) hq
  rw [Bool.eq_iff_iff, isAbsolute_iff, isAbsolute_iff, hfront]
  rcases hp with hp | ⟨hp, hlast⟩
  · rw [hp]
    rcases front with _ | ⟨x, _ | ⟨y, front⟩⟩ <;> simp
  · rw [hp]
    rcases front with _ | ⟨x, _ | ⟨y, front⟩⟩
    · simp
    · simpa using hlast
    · simp

end JoinName

/-! ## The path without its last component -/

section Parent

variable {p q : Path} {b : List String}

theorem isAbsolute_iff_lead : p.isAbsolute = true ↔ p.lead = [""] := by
  rw [isAbsolute_iff]
  constructor
  · rintro ⟨s, rest, hsegments⟩
    unfold lead
    rw [hsegments]
    rfl
  · intro h
    unfold lead at h
    split at h
    · rename_i s rest hsegments
      exact ⟨s, rest, hsegments⟩
    · simp at h
    · simp at h

theorem lead_cases (p : Path) : p.lead = [""] ∨ p.lead = ["."] ∨ p.lead = [] := by
  unfold lead
  split
  · exact .inl rfl
  · exact .inr (.inl rfl)
  · exact .inr (.inr rfl)

theorem lead_eq_nil_of_prefix (h : q.segments <+: p.segments) (hp : p.lead = []) :
    q.lead = [] := by
  obtain ⟨rest, hrest⟩ := h
  unfold lead at hp ⊢
  split
  · rename_i hq
    rw [← hrest, hq] at hp
    cases hp
  · rename_i hq
    rw [← hrest, hq] at hp
    cases hp
  · rfl

theorem body_eq_of_lead (h : p.lead = []) : p.body = p.segments := by
  unfold body
  rw [h]
  rfl

/-- What is left of a path keeps its front, and has no pieces but those it is made of. -/
theorem assemble_front (h : b <+: p.body) :
    (assemble p.lead b).lead = p.lead ∧
      (assemble p.lead b).components = p.lead ++ b.filter fun s => !isTrivial s := by
  rcases p.lead_cases with hlead | hlead | hlead
  · rw [hlead]
    cases b with
    | nil => exact ⟨rfl, rfl⟩
    | cons s b => exact ⟨rfl, rfl⟩
  · rw [hlead]
    exact ⟨rfl, rfl⟩
  · rw [hlead]
    cases b with
    | nil => exact ⟨rfl, rfl⟩
    | cons s b =>
        rw [body_eq_of_lead hlead] at h
        have hnil : (⟨s :: b⟩ : Path).lead = [] := lead_eq_nil_of_prefix h hlead
        refine ⟨hnil, ?_⟩
        change (⟨s :: b⟩ : Path).components = _
        unfold components
        rw [hnil, body_eq_of_lead hnil]

theorem filter_dropWhile_trivial (w : List String) :
    (w.dropWhile isTrivial).filter (fun s => !isTrivial s) = w.filter fun s => !isTrivial s := by
  induction w with
  | nil => rfl
  | cons s w ih =>
      rw [List.dropWhile_cons]
      split
      · rename_i hs
        rw [ih, List.filter_cons_of_neg (by simp [hs])]
      · rfl

/-- All that taking away the last component can do. -/
theorem parent?_cases (h : p.parent? = some q) :
    p.components = ["."] ∧ p.isAbsolute = false ∧ q = empty ∨
      ∃ x b, b <+: p.body ∧ q = assemble p.lead b ∧
        p.components = p.lead ++ (b.filter fun s => !isTrivial s) ++ [x] := by
  have hfilter : p.body.filter (fun s => !isTrivial s) =
      (p.backwards.filter fun s => !isTrivial s).reverse := by
    unfold backwards
    rw [filter_dropWhile_trivial, List.filter_reverse, List.reverse_reverse]
  unfold parent? at h
  split at h
  · rename_i x before hback
    right
    obtain ⟨front, hfront⟩ : x :: before <:+ p.body.reverse :=
      hback ▸ List.dropWhile_suffix isTrivial
    refine ⟨x, (before.dropWhile isTrivial).reverse, ?_, (Option.some.inj h).symm, ?_⟩
    · rw [← List.reverse_reverse p.body, List.reverse_prefix, ← hfront]
      exact (List.dropWhile_suffix isTrivial).trans
        ((List.suffix_cons x before).trans (List.suffix_append front _))
    · have hx : isTrivial x = false := by
        have hnot := List.head?_dropWhile_not isTrivial p.body.reverse
        rw [show p.body.reverse.dropWhile isTrivial = x :: before from hback] at hnot
        exact hnot
      unfold components
      rw [hfilter, hback, List.filter_cons_of_pos (by simp [hx]), List.reverse_cons,
        List.filter_reverse, filter_dropWhile_trivial, List.append_assoc]
  · rename_i hback
    left
    split at h
    · rename_i hlead
      refine ⟨?_, ?_, (Option.some.inj h).symm⟩
      · unfold components
        rw [hfilter, hback, hlead]
        rfl
      · rw [Bool.eq_false_iff, Ne, isAbsolute_iff_lead, hlead]
        decide
    · cases h

theorem components_of_parent? (h : p.parent? = some q) :
    ∃ x, p.components = q.components ++ [x] := by
  rcases parent?_cases h with ⟨hp, -, rfl⟩ | ⟨x, b, hb, rfl, hp⟩
  · exact ⟨".", hp⟩
  · exact ⟨x, by rw [hp, (assemble_front hb).2]⟩

theorem isAbsolute_of_parent? (h : p.parent? = some q) : q.isAbsolute = p.isAbsolute := by
  rcases parent?_cases h with ⟨-, hp, rfl⟩ | ⟨x, b, hb, rfl, -⟩
  · rw [hp]
    rfl
  · rw [Bool.eq_iff_iff, isAbsolute_iff_lead, isAbsolute_iff_lead, (assemble_front hb).1]

theorem components_of_no_parent (h : p.parent? = none) : ∀ s ∈ p.components, s = "" := by
  unfold parent? at h
  split at h
  · cases h
  · rename_i hback
    split at h
    · cases h
    · rename_i hdot
      have hbody : p.body.filter (fun s => !isTrivial s) = [] := by
        rw [← List.reverse_reverse p.body, List.filter_reverse, ← filter_dropWhile_trivial,
          show p.body.reverse.dropWhile isTrivial = [] from hback]
        rfl
      unfold components
      rw [hbody, List.append_nil]
      rcases p.lead_cases with hlead | hlead | hlead
      · simp [hlead]
      · exact absurd hlead hdot
      · simp [hlead]

theorem intercalate_of_prefix {w w' : List String} (h : w <+: w') :
    ∃ rest, "/".intercalate w' = "/".intercalate w ++ rest := by
  obtain ⟨w₂, rfl⟩ := h
  by_cases hw : w = []
  · exact ⟨"/".intercalate w₂, by simp [hw]⟩
  · by_cases hw₂ : w₂ = []
    · exact ⟨"", by simp [hw₂]⟩
    · refine ⟨"/" ++ "/".intercalate w₂, ?_⟩
      rw [String.intercalate_append_of_ne_nil hw hw₂, String.append_assoc]

/-- A path without its last component is spelled by the first part of its spelling. -/
theorem text_of_parent? (h : p.parent? = some q) : ∃ rest, p.text = q.text ++ rest := by
  have hempty : ∃ rest, p.text = empty.text ++ rest := ⟨p.text, by simp [text, empty]⟩
  rcases parent?_cases h with ⟨-, -, rfl⟩ | ⟨x, b, hb, rfl, -⟩
  · exact hempty
  · have hfront : p.lead ++ b <+: p.segments := by
      rw [← p.lead_append_body]
      exact (List.prefix_append_right_inj _).mpr hb
    rcases p.lead_cases with hlead | hlead | hlead
    · cases b with
      | nil =>
          -- the root is spelled with its slash
          obtain ⟨s, rest, hsegments⟩ := isAbsolute_iff.mp (isAbsolute_iff_lead.mpr hlead)
          refine ⟨"/".intercalate (s :: rest), ?_⟩
          rw [hlead, text, hsegments, String.intercalate_cons_cons]
          rfl
      | cons s b =>
          rw [hlead] at hfront ⊢
          exact intercalate_of_prefix hfront
    · rw [hlead] at hfront ⊢
      exact intercalate_of_prefix hfront
    · rw [hlead] at hfront ⊢
      cases b with
      | nil => exact hempty
      | cons s b => exact intercalate_of_prefix hfront

/-- The spelling of a name in a directory. -/
theorem text_join_name {name : String} (hq : q.segments = [name]) :
    ∃ slash, (slash = "" ∨ slash = "/") ∧ (p.join q).text = p.text ++ slash ++ name := by
  obtain ⟨front, hfront, hp⟩ := segments_join_name (p := p) hq
  unfold text
  rw [hfront]
  by_cases hnil : front = []
  · refine ⟨"", .inl rfl, ?_⟩
    rcases hp with hp | ⟨hp, -⟩
    · simp [hp, hnil]
    · simp [hp, hnil]
  · rw [String.intercalate_append_of_ne_nil hnil (List.cons_ne_nil _ _),
      String.intercalate_singleton]
    rcases hp with hp | ⟨hp, -⟩
    · refine ⟨"", .inl rfl, ?_⟩
      rw [hp, String.intercalate_append_of_ne_nil hnil (List.cons_ne_nil _ _),
        String.intercalate_singleton, String.append_empty, String.append_empty]
    · exact ⟨"/", .inr rfl, by rw [hp]⟩

theorem components_sublist (p : Path) : p.components.Sublist p.segments := by
  rw [← p.lead_append_body]
  exact List.filter_sublist.append_left p.lead

theorem filter_components (p : Path) :
    p.components.filter (fun s => !isTrivial s) = p.segments.filter fun s => !isTrivial s := by
  have hfilter (w : List String) : (w.filter fun s => !isTrivial s).filter (fun s => !isTrivial s) =
      w.filter fun s => !isTrivial s := by
    rw [List.filter_filter]
    simp
  rw [← p.lead_append_body]
  unfold components
  rw [List.filter_append, List.filter_append, hfilter]

end Parent

/-! ## Places around a place -/

section Places

variable {p q : Path} {s : String} {w : List String}

theorem foldl_move_trivial (h : ∀ s ∈ w, isTrivial s = true) (l : Location) :
    w.foldl move l = l := by
  induction w with
  | nil => rfl
  | cons s w ih =>
      rw [List.foldl_cons, move, if_pos (h s List.mem_cons_self)]
      exact ih fun s' hs' => h s' (List.mem_cons_of_mem _ hs')

theorem foldl_move_filter (w : List String) (l : Location) :
    (w.filter fun s => !isTrivial s).foldl move l = w.foldl move l := by
  induction w generalizing l with
  | nil => rfl
  | cons s w ih =>
      by_cases hs : isTrivial s = true
      · rw [List.filter_cons_of_neg (by simp [hs]), ih, List.foldl_cons, move, if_pos hs]
      · rw [List.filter_cons_of_pos (by simp [hs]), List.foldl_cons, ih, List.foldl_cons]

theorem foldl_move_components (p : Path) (l : Location) :
    p.components.foldl move l = p.segments.foldl move l := by
  rw [← foldl_move_filter, filter_components, foldl_move_filter]

theorem move_cases (hs : s ≠ "..") (l : Location) : move l s = l ∨ move l s = s :: l := by
  unfold move
  rw [if_neg hs]
  split
  · exact .inl rfl
  · exact .inr rfl

/-- Without `..` the way leads inwards. -/
theorem suffix_foldl_move (hup : ".." ∉ w) (l : Location) : l <:+ w.foldl move l := by
  induction w generalizing l with
  | nil => exact List.suffix_rfl
  | cons s w ih =>
      rw [List.mem_cons, not_or] at hup
      rw [List.foldl_cons]
      refine List.IsSuffix.trans ?_ (ih hup.2 (move l s))
      rcases move_cases (Ne.symm hup.1) l with hstay | hname
      · exact ⟨[], hstay.symm⟩
      · exact ⟨[s], hname.symm⟩

/-- Pieces that do not lead inwards. -/
def isRising (s : String) : Bool := isTrivial s || s == ".."

theorem foldl_move_suffix (h : ∀ s ∈ w, isRising s = true) (l : Location) :
    w.foldl move l <:+ l := by
  induction w generalizing l with
  | nil => exact List.suffix_rfl
  | cons s w ih =>
      rw [List.foldl_cons]
      refine (ih (fun s' hs' => h s' (List.mem_cons_of_mem s hs')) (move l s)).trans ?_
      unfold move
      split
      · exact List.suffix_rfl
      · rename_i hs
        have hup : s = ".." := by simpa [isRising, hs] using h s List.mem_cons_self
        rw [if_pos hup]
        exact List.tail_suffix l

/-- Each `..` stands in front of all names. -/
def Direct (p : Path) : Prop := ".." ∉ p.components.dropWhile isRising

instance (p : Path) : Decidable p.Direct := inferInstanceAs (Decidable (¬ _))

theorem prefix_of_mem_ancestorsUpTo {n : Nat} (h : q ∈ p.ancestorsUpTo n) :
    q.components <+: p.components ∧ q.isAbsolute = p.isAbsolute := by
  induction n generalizing p with
  | zero => cases h
  | succ n ih =>
      unfold ancestorsUpTo at h
      rcases List.mem_cons.mp h with rfl | h
      · exact ⟨List.prefix_rfl, rfl⟩
      · split at h
        · cases h
        · rename_i p' hparent
          obtain ⟨x, hx⟩ := components_of_parent? hparent
          obtain ⟨hcomponents, habsolute⟩ := ih h
          refine ⟨hcomponents.trans ?_, habsolute.trans (isAbsolute_of_parent? hparent)⟩
          rw [hx]
          exact List.prefix_append _ _

/-- A direct path is spelled along the directories around its place, after those around the place
it starts from. -/
theorem locate_suffix_of_mem_ancestors (hp : p.Direct) (h : q ∈ p.ancestors) (base : Location) :
    q.locate base <:+ p.locate base ∨ q.locate base <:+ base := by
  obtain ⟨hfront, habsolute⟩ := prefix_of_mem_ancestorsUpTo h
  have hroot : q.root base = p.root base := by
    unfold root
    rw [habsolute]
  have hbase : p.root base <:+ base := by
    unfold root
    split
    · exact List.nil_suffix
    · exact List.suffix_rfl
  unfold locate
  rw [← foldl_move_components, ← foldl_move_components p, hroot]
  have htop : p.components.takeWhile isRising <+: p.components := List.takeWhile_prefix _
  rcases List.prefix_or_prefix_of_prefix hfront htop with hrising | hrising
  · -- the path is cut off before its first name
    refine .inr ((foldl_move_suffix (fun s hs => ?_) _).trans hbase)
    exact List.all_eq_true.mp List.all_takeWhile s (hrising.subset hs)
  · obtain ⟨rest, hrest⟩ := hfront
    obtain ⟨mid, hmid⟩ := hrising
    have hnames : ".." ∉ rest := by
      have hsplit : p.components.dropWhile isRising = mid ++ rest := by
        rw [← hmid, List.append_assoc] at hrest
        exact List.append_cancel_left (List.takeWhile_append_dropWhile.trans hrest.symm)
      intro hmem
      exact hp (hsplit ▸ List.mem_append_right mid hmem)
    rw [← hrest, List.foldl_append]
    exact .inl (suffix_foldl_move hnames _)

end Places

end Path

end Dam
