import Dam.Proofs.Paths
import Mathlib.Data.List.DropRight

/-!
# Where paths lead

A path has two places in a tree: that of the name at its end, and the one it leads to if that
name is a link. `FileTree.Reaches` finds both by the links alone and does not ask for the
directories on the way, so a path has its places before these are made. It also keeps them
while other actions run: if no link is added, and none gives way to a directory, then wherever
the path is followed to later on was one of its places, or held a link that is gone
(`reaches_of_walkUpTo`).

Without links all this is lexical: `..` undoes the name in front of it (`locate_of_resolve`).
-/

namespace Dam

/-! ## Entries and contents -/

namespace FileTree

variable {t : FileTree} {l l' : Location} {n : Nat}

theorem lookup_filter_ne {α β : Type} [BEq α] [LawfulBEq α] {a b : α} (h : b ≠ a)
    (pairs : List (α × β)) : (pairs.filter fun x => x.1 != a).lookup b = pairs.lookup b := by
  induction pairs with
  | nil => rfl
  | cons x pairs ih =>
      obtain ⟨a', y⟩ := x
      by_cases ha : a' = a
      · subst ha
        have hne : (b == a') = false := beq_eq_false_iff_ne.mpr h
        simp [List.lookup_cons, hne, ih]
      · simp [List.lookup_cons, ha, ih]

theorem ne_root (h : t.get? l ≠ some .directory) : l ≠ [] := by
  rintro rfl
  exact h rfl

theorem get?_erase (h : l' ≠ l) : (t.erase l).get? l' = t.get? l' := by
  unfold get? erase
  rw [lookup_filter_ne h]

theorem get?_erase_self (h : l ≠ []) : (t.erase l).get? l = none := by
  unfold get? erase
  rw [if_neg h, List.lookup_eq_none_iff]
  intro x hx
  have hne : x.1 ≠ l := bne_iff_ne.mp (List.mem_filter.mp hx).2
  exact bne_iff_ne.mpr hne.symm

theorem get?_insert (h : l' ≠ l) (e : Entry) : (t.insert l e).get? l' = t.get? l' := by
  unfold get? insert
  have hne : (l' == l) = false := beq_eq_false_iff_ne.mpr h
  rw [List.lookup_cons, hne, lookup_filter_ne h]

theorem get?_insert_self (h : l ≠ []) (e : Entry) : (t.insert l e).get? l = some e := by
  simp [get?, insert, h]

theorem get?_setContent (n : Nat) (c : Bytes) (l : Location) :
    (t.setContent n c).get? l = t.get? l := rfl

theorem content_setContent {n' : Nat} (h : n' ≠ n) (c : Bytes) :
    (t.setContent n c).content n' = t.content n' := by
  unfold content setContent
  have hne : (n' == n) = false := beq_eq_false_iff_ne.mpr h
  rw [List.lookup_cons, hne, lookup_filter_ne h]

theorem le_foldr_max {ns : List Nat} (h : n ∈ ns) : n ≤ ns.foldr max 0 := by
  induction ns with
  | nil => cases h
  | cons m ns ih =>
      rw [List.foldr_cons]
      rcases List.mem_cons.mp h with rfl | h
      · exact Nat.le_max_left _ _
      · exact (ih h).trans (Nat.le_max_right _ _)

/-- No name has the number that a new file gets. -/
theorem get?_ne_freshNumber (t : FileTree) (l : Location) :
    t.get? l ≠ some (.file t.freshNumber) := by
  unfold get?
  split
  · exact fun h => by cases h
  · intro h
    obtain ⟨front, rest, hentries, -⟩ := List.lookup_eq_some_iff.mp h
    have hmem : t.freshNumber ∈ t.entries.filterMap fun x => x.2.number? := by
      rw [hentries]
      exact List.mem_filterMap.mpr ⟨(l, .file t.freshNumber), by simp, rfl⟩
    exact absurd (le_foldr_max hmem) (Nat.not_le.mpr (Nat.lt_succ_self _))

theorem put_of_file (h : t.get? l = some (.file n)) (c : Bytes) :
    t.put l c = t.setContent n c := by
  unfold put
  rw [h]

theorem put_of_no_file (h : ∀ n, t.get? l ≠ some (.file n)) (c : Bytes) :
    t.put l c = (t.insert l (.file t.freshNumber)).setContent t.freshNumber c := by
  unfold put
  split
  · rename_i n hn
    exact absurd hn (h n)
  · rfl

/-- Putting content somewhere leaves a file there and every other entry as it was. -/
theorem get?_put (h : t.get? l ≠ some .directory) (c : Bytes) (l' : Location) :
    (l' ≠ l ∧ (t.put l c).get? l' = t.get? l') ∨
      (l' = l ∧ ∃ n, (t.put l c).get? l' = some (.file n)) := by
  by_cases hfile : ∃ n, t.get? l = some (.file n)
  · obtain ⟨n, hn⟩ := hfile
    rw [put_of_file hn, get?_setContent]
    by_cases hl : l' = l
    · subst hl
      exact .inr ⟨rfl, n, hn⟩
    · exact .inl ⟨hl, rfl⟩
  · rw [put_of_no_file (not_exists.mp hfile), get?_setContent]
    by_cases hl : l' = l
    · subst hl
      exact .inr ⟨rfl, _, get?_insert_self (ne_root h) _⟩
    · exact .inl ⟨hl, get?_insert hl _⟩

/-! ## Places of a path -/

theorem directory_of_enter {segment : String} (h : t.enter l segment = .ok l') :
    t.get? l = some .directory := by
  unfold enter at h
  split at h
  · cases h
  · assumption
  · cases h

theorem move_of_enter {segment : String} (h : t.enter l segment = .ok l') :
    Path.move l segment = l' := by
  unfold enter at h
  rw [directory_of_enter h] at h
  unfold Path.move
  dsimp only at h
  split at h
  · rename_i htrivial
    rw [if_pos htrivial]
    exact Except.ok.inj h
  · rename_i htrivial
    rw [if_neg htrivial]
    split at h
    · rename_i hup
      rw [if_pos hup]
      exact Except.ok.inj h
    · rename_i hup
      rw [if_neg hup]
      split at h
      · cases h
      · exact Except.ok.inj h

/-- The pieces of a path lead from one location to another one by the links of the tree. A link at
the end is followed only if `last` is set. -/
inductive Reaches (t : FileTree) (last : Bool) : Location → List String → Location → Prop
  | done {l : Location} : Reaches t last l [] l
  | pass {l m : Location} {s : String} {rest : List String}
      (hlink : ∀ target, t.get? (Path.move l s) ≠ some (.link target))
      (hrest : Reaches t last (Path.move l s) rest m) : Reaches t last l (s :: rest) m
  | stop {l : Location} {s : String} {target : Path}
      (hlink : t.get? (Path.move l s) = some (.link target)) (hlast : last = false) :
      Reaches t last l [s] (Path.move l s)
  | jump {l m : Location} {s : String} {rest : List String} {target : Path}
      (hlink : t.get? (Path.move l s) = some (.link target)) (hlast : rest ≠ [] ∨ last = true)
      (hrest : Reaches t last (target.root l) (target.segments ++ rest) m) :
      Reaches t last l (s :: rest) m

/-- The name at the end of a path has this place. -/
def NameAt (t : FileTree) (p : Path) (l : Location) : Prop :=
  t.Reaches false (p.root t.current) p.segments l

/-- A path leads to this place. -/
def LeadsTo (t : FileTree) (p : Path) (l : Location) : Prop :=
  t.Reaches true (p.root t.current) p.segments l

/-- One of the two places of a path. -/
def PlaceOf (t : FileTree) (p : Path) (l : Location) : Prop := t.NameAt p l ∨ t.LeadsTo p l

/-- The name at the end of a path is a link. -/
def IsLink (t : FileTree) (p : Path) : Prop :=
  ∃ l target, t.NameAt p l ∧ t.get? l = some (.link target)

/-- A path that leads elsewhere than to its name has a link there. -/
theorem Reaches.name {base : Location} {w : List String} (h : t.Reaches true base w l) :
    t.Reaches false base w l ∨
      ∃ l' target, t.Reaches false base w l' ∧ t.get? l' = some (.link target) := by
  induction h with
  | done => exact .inl .done
  | pass hlink _ ih =>
      rcases ih with ih | ⟨l', target, ih, hl'⟩
      · exact .inl (.pass hlink ih)
      · exact .inr ⟨l', target, .pass hlink ih, hl'⟩
  | stop _ hlast => cases hlast
  | @jump _ _ _ rest target hlink _ _ ih =>
      by_cases hrest : rest = []
      · subst hrest
        exact .inr ⟨_, target, .stop hlink rfl, hlink⟩
      · rcases ih with ih | ⟨l', target, ih, hl'⟩
        · exact .inl (.jump hlink (.inl hrest) ih)
        · exact .inr ⟨l', target, .jump hlink (.inl hrest) ih, hl'⟩

theorem nameAt_of_leadsTo {p : Path} (h : t.LeadsTo p l) (hlink : ¬ t.IsLink p) : t.NameAt p l := by
  rcases h.name with h | ⟨l', target, h, hl'⟩
  · exact h
  · exact absurd ⟨l', target, h, hl'⟩ hlink

/-- Slashes at the end do not count if there is no link. -/
theorem Reaches.append_trivial {base : Location} {w w' : List String}
    (h : t.Reaches false base w l) (hlink : ∀ target, t.get? l ≠ some (.link target))
    (hw' : ∀ s ∈ w', Path.isTrivial s = true) : t.Reaches false base (w ++ w') l := by
  induction h with
  | @done l =>
      rw [List.nil_append]
      clear w
      induction w' with
      | nil => exact .done
      | cons s w' ih =>
          have hstay : Path.move l s = l := if_pos (hw' s List.mem_cons_self)
          have hrest := ih fun s' hs' => hw' s' (List.mem_cons_of_mem s hs')
          exact .pass (by rw [hstay]; exact hlink) (by rw [hstay]; exact hrest)
  | pass hother _ ih => exact .pass hother (ih hlink)
  | stop hother _ => exact absurd hother (hlink _)
  | @jump _ _ _ rest _ hother hlast _ ih =>
      have hrest : rest ≠ [] := hlast.resolve_right Bool.false_ne_true
      have hih := ih hlink
      rw [List.append_assoc] at hih
      exact .jump hother (.inl (by simp [hrest])) hih

end FileTree

/-! ## Following a path in a changed tree -/

/-- From the first tree to the second one no link was added, and none gave way to a directory. -/
structure FileTree.Straight (t₀ t : FileTree) : Prop where
  old : ∀ l target, t.get? l = some (.link target) → t₀.get? l = some (.link target)
  blocked : ∀ l target, t₀.get? l = some (.link target) → t.get? l ≠ some .directory

namespace FileTree

variable {t₀ t t₁ : FileTree} {base l : Location} {w : List String} {last : Bool} {p : Path}

/-- There was a link that is gone. -/
def Lost (t₀ t : FileTree) (l : Location) : Prop :=
  ∃ target, t₀.get? l = some (.link target) ∧ t.get? l ≠ some (.link target)

theorem Straight.refl (t : FileTree) : Straight t t :=
  ⟨fun _ _ h => h, fun _ _ h hdir => by rw [h] at hdir; cases hdir⟩

theorem not_lost (t : FileTree) (l : Location) : ¬ Lost t t l :=
  fun ⟨_, h, hne⟩ => hne h

theorem reaches_of_walk (h : Straight t₀ t)
    {jump : Location → List String → Except IoError Location}
    (hjump : ∀ {base w l}, jump base w = .ok l → t₀.Reaches last base w l ∨ Lost t₀ t l)
    (hwalk : t.walk last jump base w = .ok l) : t₀.Reaches last base w l ∨ Lost t₀ t l := by
  induction w generalizing base with
  | nil =>
      obtain rfl := Except.ok.inj hwalk
      exact .inl .done
  | cons s rest ih =>
      unfold walk at hwalk
      cases henter : t.enter base s with
      | error e =>
          rw [henter] at hwalk
          cases hwalk
      | ok l' =>
          rw [henter] at hwalk
          have hl' : Path.move base s = l' := move_of_enter henter
          dsimp only at hwalk
          split at hwalk
          · rename_i target hlink
            have hold : t₀.get? (Path.move base s) = some (.link target) := by
              rw [hl']
              exact h.old l' target hlink
            split at hwalk
            · rename_i hstop
              obtain ⟨hrest, hlast⟩ := Bool.and_eq_true_iff.mp hstop
              obtain rfl := List.isEmpty_iff.mp hrest
              obtain rfl := Except.ok.inj hwalk
              rw [← hl']
              exact .inl (.stop hold (by simpa using hlast))
            · rename_i hgo
              rcases hjump hwalk with hreach | hlost
              · refine .inl (.jump hold ?_ hreach)
                cases rest with
                | nil => exact .inr (by simpa using hgo)
                | cons _ _ => exact .inl (List.cons_ne_nil _ _)
              · exact .inr hlost
          · rename_i hnone
            by_cases hold : ∃ target, t₀.get? l' = some (.link target)
            · -- the link is gone, and there is no directory to go on from
              obtain ⟨target, hold⟩ := hold
              cases rest with
              | nil =>
                  obtain rfl := Except.ok.inj hwalk
                  exact .inr ⟨target, hold, hnone target⟩
              | cons s' rest =>
                  unfold walk at hwalk
                  cases henter' : t.enter l' s' with
                  | error e =>
                      rw [henter'] at hwalk
                      cases hwalk
                  | ok _ => exact absurd (directory_of_enter henter') (h.blocked l' target hold)
            · rw [not_exists] at hold
              rcases ih hwalk with hreach | hlost
              · exact .inl (.pass (by rw [hl']; exact hold) (by rw [hl']; exact hreach))
              · exact .inr hlost

/-- **Paths keep their places.** Where a path is followed to is known from the links that were there
before. -/
theorem reaches_of_walkUpTo (h : Straight t₀ t) {n : Nat}
    (hwalk : t.walkUpTo last n base w = .ok l) : t₀.Reaches last base w l ∨ Lost t₀ t l := by
  induction n generalizing base w l with
  | zero => exact reaches_of_walk h (fun hjump => by cases hjump) hwalk
  | succ n ih => exact reaches_of_walk h ih hwalk

theorem follow_of_check {w : List String} (h : (do checkSpelling p; t.follow last p w) = .ok l) :
    t.walkUpTo last linkLimit (p.root t.current) w = .ok l := by
  cases hs : checkSpelling p with
  | error e =>
      rw [hs] at h
      cases h
  | ok _ =>
      rw [hs] at h
      exact h

theorem leadsTo_of_resolve (h : Straight t₀ t) (hcurrent : t.current = t₀.current)
    (hr : t.resolve p = .ok l) : t₀.LeadsTo p l ∨ Lost t₀ t l := by
  have hwalk := follow_of_check hr
  rw [hcurrent] at hwalk
  exact reaches_of_walkUpTo h hwalk

theorem nameAt_of_resolveName (h : Straight t₀ t) (hcurrent : t.current = t₀.current)
    (hr : t.resolveName p = .ok l) : t₀.NameAt p l ∨ Lost t₀ t l := by
  have hwalk := follow_of_check hr
  rw [hcurrent] at hwalk
  exact reaches_of_walkUpTo h hwalk

/-- A directory is made at the place of its name. -/
theorem nameAt_of_resolveBare (h : Straight t₀ t) (hcurrent : t.current = t₀.current)
    (hr : t.resolveBare p = .ok l) (hnone : t₀.get? l = none) : t₀.NameAt p l := by
  have hwalk := follow_of_check hr
  rw [hcurrent] at hwalk
  rcases reaches_of_walkUpTo h hwalk with hreach | ⟨target, hlink, -⟩
  · have hend : ∀ s ∈ p.segments.rtakeWhile (· == ""), Path.isTrivial s = true := by
      intro s hs
      have hempty := List.mem_rtakeWhile_imp hs
      simp [Path.isTrivial, hempty]
    have hall := hreach.append_trivial (fun target => by rw [hnone]; exact nofun) hend
    unfold NameAt
    rwa [show (p.segments.reverse.dropWhile (· == "")).reverse = p.segments.rdropWhile (· == "")
      from rfl, List.rdropWhile_append_rtakeWhile] at hall
  · rw [hnone] at hlink
    cases hlink

end FileTree

/-! ## Trees without links -/

namespace FileTree

variable {t : FileTree} {l l' : Location} {p : Path}

/-- No name is a link. -/
def NoLinks (t : FileTree) : Prop := ∀ l target, t.get? l ≠ some (.link target)

theorem noLinks_of_entries (h : ∀ x ∈ t.entries, ∀ target, x.2 ≠ .link target) : t.NoLinks := by
  intro l target hl
  unfold get? at hl
  split at hl
  · cases hl
  · obtain ⟨front, rest, hentries, -⟩ := List.lookup_eq_some_iff.mp hl
    exact h (l, .link target) (by rw [hentries]; simp) target rfl

theorem walk_eq_foldlM (h : t.NoLinks) (last : Bool)
    (jump : Location → List String → Except IoError Location) (l : Location) (w : List String) :
    t.walk last jump l w = w.foldlM t.enter l := by
  induction w generalizing l with
  | nil => rfl
  | cons s w ih =>
      unfold walk
      rw [List.foldlM_cons]
      cases t.enter l s with
      | error e => rfl
      | ok l' =>
          dsimp only
          split
          · rename_i target hlink
            exact absurd hlink (h l' target)
          · exact ih l'

theorem follow_eq_foldlM (h : t.NoLinks) (last : Bool) (p : Path) (w : List String) :
    t.follow last p w = w.foldlM t.enter (p.root t.current) :=
  walk_eq_foldlM h last (t.walkUpTo last (linkLimit - 1)) (p.root t.current) w

theorem foldl_move_of_enter {segments : List String} (h : segments.foldlM t.enter l = .ok l') :
    segments.foldl Path.move l = l' := by
  induction segments generalizing l with
  | nil => exact Except.ok.inj h
  | cons s segments ih =>
      rw [List.foldlM_cons] at h
      cases hs : t.enter l s with
      | error e => rw [hs] at h; cases h
      | ok l₁ =>
          rw [hs] at h
          rw [List.foldl_cons, move_of_enter hs]
          exact ih h

/-- What a path is resolved to does not depend on the tree. -/
theorem locate_of_resolve (h : t.NoLinks) (hr : t.resolve p = .ok l) : p.locate t.current = l := by
  have hfollow : t.follow true p p.segments = .ok l := follow_of_check hr
  rw [follow_eq_foldlM h] at hfollow
  exact foldl_move_of_enter hfollow

theorem locate_of_nameAt (h : t.NoLinks) (hname : t.NameAt p l) : p.locate t.current = l := by
  have hall {base l : Location} {w : List String} (hw : t.Reaches false base w l) :
      w.foldl Path.move base = l := by
    induction hw with
    | done => rfl
    | pass _ _ ih => exact ih
    | stop hlink _ => exact absurd hlink (h _ _)
    | jump hlink _ _ _ => exact absurd hlink (h _ _)
  exact hall hname

end FileTree

/-! ## Names at the ends of paths -/

namespace Path

/-- A path that ends in a name has that name at its place. -/
theorem head?_of_reaches {t : FileTree} {base l : Location} {w : List String} {name : String}
    (h : t.Reaches false base w l) (hw : w.getLast? = some name) (hname : IsName name) :
    l.head? = some name := by
  induction h with
  | done => cases hw
  | @pass base _ s rest _ hrest ih =>
      cases rest with
      | nil =>
          obtain rfl : s = name := Option.some.inj hw
          cases hrest
          rw [move_name hname, List.head?_cons]
      | cons s' rest => exact ih (by rwa [List.getLast?_cons_cons] at hw)
  | @stop _ s _ _ _ =>
      obtain rfl : s = name := Option.some.inj hw
      rw [move_name hname, List.head?_cons]
  | @jump _ _ _ rest target _ hlast _ ih =>
      have hrest : rest ≠ [] := hlast.resolve_right Bool.false_ne_true
      obtain ⟨s', rest, rfl⟩ := List.exists_cons_of_ne_nil hrest
      rw [List.getLast?_cons_cons] at hw
      exact ih (by rw [List.getLast?_append, hw, Option.some_or])

end Path

end Dam
