import Dam.Proofs.Emission
import Dam.Proofs.Locations

/-!
# What actions on files change

Actions on files can fail between any two steps, so what they have done by then must be bounded
without a look at how they end. `FileTree.Changed` says of two trees that names differ only at some
places, that directories were made only where nothing was, and that the only files with another
content are those that had a name at these places. The relation is a preorder, so a sequence of
actions stays within it if each action does (`Ends.bind`), whether the sequence ends well or breaks
off.

The places are those of some paths in the tree that the sequence began with, while each action
follows links in the tree that it finds. By `FileTree.reaches_of_walkUpTo` that is the same as long
as no link is added (`FileTree.Within.places`). There is one action that may add a link: moving one
(`FileTree.Loose`).
-/

namespace Dam

/-! ## Trees that differ in a few places -/

namespace FileTree

variable {t t₀ t₁ t₂ : FileTree} {D P : Location → Prop} {l l' : Location} {n : Nat} {c : Bytes}
  {e : Entry}

/-- The file is new, or has a name at one of the places. -/
def Exposed (t : FileTree) (P : Location → Prop) (n : Nat) : Prop :=
  (∀ l, t.get? l ≠ some (.file n)) ∨ ∃ l, P l ∧ t.get? l = some (.file n)

/-- From the first tree to the second one, names changed only at the places `P`, except that
directories were made at places `D` where nothing was. The contents of files changed, and names at
`P` stand for other files, only as far as these files are new or had a name at `P`. -/
structure Changed (D P : Location → Prop) (t t' : FileTree) : Prop where
  current : t'.current = t.current
  refusal : t'.refusal = t.refusal
  name : ∀ l, t'.get? l = t.get? l ∨ (P l ∧ ∀ n, t'.get? l = some (.file n) → t.Exposed P n) ∨
    (D l ∧ t.get? l = none ∧ t'.get? l = some .directory)
  content : ∀ n, t'.content n = t.content n ∨ t.Exposed P n

theorem Changed.refl (t : FileTree) : Changed D P t t :=
  ⟨rfl, rfl, fun _ => .inl rfl, fun _ => .inl rfl⟩

theorem Changed.exposed (h : Changed D P t t₁) (hn : t₁.Exposed P n) : t.Exposed P n := by
  rcases hn with hnew | ⟨l, hl, hfile⟩
  · by_cases hold : ∃ l, P l ∧ t.get? l = some (.file n)
    · exact .inr hold
    · -- a name elsewhere would still be there
      refine .inl fun l hfile => ?_
      rcases h.name l with hsame | ⟨hl, -⟩ | ⟨-, hnone, -⟩
      · exact hnew l (hsame.trans hfile)
      · exact hold ⟨l, hl, hfile⟩
      · rw [hnone] at hfile
        cases hfile
  · rcases h.name l with hsame | ⟨-, hother⟩ | ⟨-, -, hmade⟩
    · exact .inr ⟨l, hl, hsame ▸ hfile⟩
    · exact hother n hfile
    · rw [hmade] at hfile
      cases hfile

theorem Changed.trans (h₁ : Changed D P t t₁) (h₂ : Changed D P t₁ t₂) : Changed D P t t₂ := by
  refine ⟨h₂.current.trans h₁.current, h₂.refusal.trans h₁.refusal, fun l => ?_, fun n => ?_⟩
  · rcases h₂.name l with hsame | ⟨hl, hfile⟩ | ⟨hdir, hnone, hmade⟩
    · rw [hsame]
      exact h₁.name l
    · exact .inr (.inl ⟨hl, fun n hn => h₁.exposed (hfile n hn)⟩)
    · -- nothing was there in between, so the first step made no directory there
      rcases h₁.name l with hsame | ⟨hl, -⟩ | ⟨-, -, hmade₁⟩
      · exact .inr (.inr ⟨hdir, hsame ▸ hnone, hmade⟩)
      · refine .inr (.inl ⟨hl, fun n hn => ?_⟩)
        rw [hmade] at hn
        cases hn
      · rw [hnone] at hmade₁
        cases hmade₁
  · rcases h₂.content n with hsame | hn
    · rw [hsame]
      exact h₁.content n
    · exact .inr (h₁.exposed hn)

theorem Changed.mono {D' P' : Location → Prop} (h : Changed D P t t₁) (hD : ∀ l, D l → D' l)
    (hP : ∀ l, P l → P' l) : Changed D' P' t t₁ := by
  have hexposed (n : Nat) (hn : t.Exposed P n) : t.Exposed P' n := by
    rcases hn with hnew | ⟨l, hl, hfile⟩
    · exact .inl hnew
    · exact .inr ⟨l, hP l hl, hfile⟩
  refine ⟨h.current, h.refusal, fun l => ?_, fun n => (h.content n).imp_right (hexposed n)⟩
  rcases h.name l with hsame | ⟨hl, hfile⟩ | ⟨hl, hmade⟩
  · exact .inl hsame
  · exact .inr (.inl ⟨hP l hl, fun n hn => hexposed n (hfile n hn)⟩)
  · exact .inr (.inr ⟨hD l hl, hmade⟩)

/-! ### Single changes -/

theorem changed_put (hl : P l) (hdir : t.get? l ≠ some .directory) (c : Bytes) :
    Changed D P t (t.put l c) := by
  by_cases hfile : ∃ n, t.get? l = some (.file n)
  · obtain ⟨n, hn⟩ := hfile
    rw [put_of_file hn]
    refine ⟨rfl, rfl, fun _ => .inl rfl, fun n' => ?_⟩
    by_cases hn' : n' = n
    · subst hn'
      exact .inr (.inr ⟨l, hl, hn⟩)
    · exact .inl (content_setContent hn' c)
  · rw [put_of_no_file (not_exists.mp hfile)]
    have hfresh : t.Exposed P t.freshNumber := .inl t.get?_ne_freshNumber
    refine ⟨rfl, rfl, fun l' => ?_, fun n' => ?_⟩
    · rw [get?_setContent]
      by_cases hl' : l' = l
      · subst hl'
        refine .inr (.inl ⟨hl, fun n hn => ?_⟩)
        rw [get?_insert_self (ne_root hdir)] at hn
        cases hn
        exact hfresh
      · exact .inl (get?_insert hl' _)
    · by_cases hn' : n' = t.freshNumber
      · exact .inr (hn' ▸ hfresh)
      · exact .inl (content_setContent hn' c)

theorem changed_erase (hl : P l) (hdir : t.get? l ≠ some .directory) :
    Changed D P t (t.erase l) := by
  refine ⟨rfl, rfl, fun l' => ?_, fun _ => .inl rfl⟩
  by_cases hl' : l' = l
  · subst hl'
    refine .inr (.inl ⟨hl, fun n hn => ?_⟩)
    rw [get?_erase_self (ne_root hdir)] at hn
    cases hn
  · exact .inl (get?_erase hl')

theorem changed_insert_directory (hl : D l) (hnone : t.get? l = none) :
    Changed D P t (t.insert l .directory) := by
  refine ⟨rfl, rfl, fun l' => ?_, fun _ => .inl rfl⟩
  by_cases hl' : l' = l
  · subst hl'
    exact .inr (.inr ⟨hl, hnone, get?_insert_self (ne_root (by rw [hnone]; exact nofun)) _⟩)
  · exact .inl (get?_insert hl' _)

/-- All names after a move: the old one is gone, the new one stands for the same. -/
theorem get?_move (hl : l ≠ []) (hl' : l' ≠ []) (e : Entry) (k : Location) :
    ((t.erase l).insert l' e).get? k =
      if k = l' then some e else if k = l then none else t.get? k := by
  by_cases hk' : k = l'
  · subst hk'
    rw [get?_insert_self hl', if_pos rfl]
  · rw [get?_insert hk', if_neg hk']
    by_cases hk : k = l
    · subst hk
      rw [get?_erase_self hl, if_pos rfl]
    · rw [get?_erase hk, if_neg hk]

theorem changed_move (hl : P l) (hl' : P l') (he : t.get? l = some e) (hdir : e ≠ .directory)
    (hdir' : t.get? l' ≠ some .directory) : Changed D P t ((t.erase l).insert l' e) := by
  have hroot : l ≠ [] := ne_root fun h => hdir (Option.some.inj (he.symm.trans h))
  refine ⟨rfl, rfl, fun k => ?_, fun _ => .inl rfl⟩
  rw [get?_move hroot (ne_root hdir')]
  by_cases hk' : k = l'
  · subst hk'
    rw [if_pos rfl]
    refine .inr (.inl ⟨hl', fun n hn => .inr ⟨l, hl, ?_⟩⟩)
    rw [he, hn]
  · rw [if_neg hk']
    by_cases hk : k = l
    · subst hk
      rw [if_pos rfl]
      exact .inr (.inl ⟨hl, fun _ hn => by cases hn⟩)
    · rw [if_neg hk]
      exact .inl rfl

/-! ### Changes that keep to the links -/

/-- The two trees have the same links. -/
def SameLinks (t₀ t : FileTree) : Prop :=
  ∀ l target, t.get? l = some (.link target) ↔ t₀.get? l = some (.link target)

theorem SameLinks.straight (h : SameLinks t₀ t) : Straight t₀ t := by
  refine ⟨fun l target hl => (h l target).mp hl, fun l target hl hdir => ?_⟩
  rw [(h l target).mpr hl] at hdir
  cases hdir

/-- A link is where it was, if all that changed was neither a link before nor after. -/
theorem SameLinks.step (h : SameLinks t₀ t) (hstep : ∀ l, t₁.get? l = t.get? l ∨
    (∀ target, t.get? l ≠ some (.link target)) ∧ ∀ target, t₁.get? l ≠ some (.link target)) :
    SameLinks t₀ t₁ := by
  intro l target
  rcases hstep l with hsame | ⟨hbefore, hafter⟩
  · rw [hsame]
    exact h l target
  · exact iff_of_false (hafter target) fun hold => hbefore target ((h l target).mpr hold)

/-- There is a file, or place for one. -/
def Writable (t : FileTree) (l : Location) : Prop :=
  t.get? l = none ∨ ∃ n, t.get? l = some (.file n)

theorem Writable.ne {l : Location} {e : Entry} (h : t.Writable l) (he : e.number? = none) :
    t.get? l ≠ some e := by
  rcases h with h | ⟨n, h⟩
  · rw [h]
    exact nofun
  · rw [h]
    rintro ⟨⟩
    cases he

theorem Writable.put (h : t.Writable l) (c : Bytes) : (t.put l c).Writable l := by
  rcases get?_put (h.ne rfl) c l with ⟨hne, -⟩ | ⟨-, hfile⟩
  · exact absurd rfl hne
  · exact .inr hfile

/-- A tree that has changed at some places, but not in its links. -/
structure Kept (D P : Location → Prop) (t₀ t : FileTree) : Prop where
  changed : Changed D P t₀ t
  links : SameLinks t₀ t

theorem Kept.refl (t : FileTree) : Kept D P t t := ⟨.refl t, fun _ _ => Iff.rfl⟩

theorem Kept.put (h : Kept D P t₀ t) (hl : P l) (hw : t.Writable l) (c : Bytes) :
    Kept D P t₀ (t.put l c) := by
  refine ⟨h.changed.trans (changed_put hl (hw.ne rfl) c), h.links.step fun l' => ?_⟩
  rcases get?_put (hw.ne rfl) c l' with ⟨-, hsame⟩ | ⟨rfl, n, hfile⟩
  · exact .inl hsame
  · refine .inr ⟨fun target => hw.ne rfl, fun target => ?_⟩
    rw [hfile]
    exact nofun

theorem Kept.insert_directory (h : Kept D P t₀ t) (hl : D l) (hnone : t.get? l = none) :
    Kept D P t₀ (t.insert l .directory) := by
  refine ⟨h.changed.trans (changed_insert_directory hl hnone), h.links.step fun l' => ?_⟩
  by_cases hl' : l' = l
  · subst hl'
    refine .inr ⟨fun target => by rw [hnone]; exact nofun, fun target => ?_⟩
    rw [get?_insert_self (ne_root (by rw [hnone]; exact nofun))]
    exact nofun
  · exact .inl (get?_insert hl' _)

/-- As long as only directories have been made, nothing has gone away. -/
theorem Kept.get?_eq_none (h : Kept D (fun _ => False) t₀ t) (hnone : t.get? l = none) :
    t₀.get? l = none := by
  rcases h.changed.name l with hsame | ⟨hl, -⟩ | ⟨-, hold, -⟩
  · exact hsame.symm.trans hnone
  · exact hl.elim
  · exact hold

theorem Kept.mono {P' : Location → Prop} (h : Kept D P t₀ t) (hP : ∀ l, P l → P' l) :
    Kept D P' t₀ t :=
  ⟨h.changed.mono (fun _ hl => hl) hP, h.links⟩

/-- A tree that has changed at some places, without a new link and without a directory in the place
of a link. -/
structure Within (D P : Location → Prop) (t₀ t : FileTree) : Prop where
  changed : Changed D P t₀ t
  straight : Straight t₀ t

theorem Within.refl (t : FileTree) : Within D P t t := ⟨.refl t, .refl t⟩

theorem Kept.within (h : Kept D P t₀ t) : Within D P t₀ t := ⟨h.changed, h.links.straight⟩

theorem Within.step (h : Within D P t₀ t) (hchanged : Changed D P t t₁)
    (hlinks : ∀ l target, t₁.get? l = some (.link target) → t.get? l = some (.link target))
    (hdirs : ∀ l, t₁.get? l = some .directory → t.get? l = some .directory) :
    Within D P t₀ t₁ :=
  ⟨h.changed.trans hchanged, fun l target hl => h.straight.old l target (hlinks l target hl),
    fun l target hl hdir => h.straight.blocked l target hl (hdirs l hdir)⟩

theorem Within.put (h : Within D P t₀ t) (hl : P l) (hw : t.Writable l) (c : Bytes) :
    Within D P t₀ (t.put l c) := by
  have hget (l' : Location) (e : Entry) (hne : e.number? = none)
      (he : (t.put l c).get? l' = some e) : t.get? l' = some e := by
    rcases get?_put (hw.ne rfl) c l' with ⟨-, hsame⟩ | ⟨-, n, hfile⟩
    · rwa [hsame] at he
    · rw [hfile] at he
      cases he
      cases hne
  exact h.step (changed_put hl (hw.ne rfl) c) (fun l' target => hget l' (.link target) rfl)
    fun l' => hget l' .directory rfl

theorem Within.erase (h : Within D P t₀ t) (hl : P l) (hdir : t.get? l ≠ some .directory) :
    Within D P t₀ (t.erase l) := by
  have hget (l' : Location) (e : Entry) (he : (t.erase l).get? l' = some e) :
      t.get? l' = some e := by
    by_cases hl' : l' = l
    · subst hl'
      rw [get?_erase_self (ne_root hdir)] at he
      cases he
    · rwa [get?_erase hl'] at he
  exact h.step (changed_erase hl hdir) (fun l' target => hget l' (.link target))
    fun l' => hget l' .directory

/-- The file that is moved must not be a link. -/
theorem Within.move (h : Within D P t₀ t) (hl : P l) (hl' : P l')
    (hfile : t.get? l = some (.file n)) (hdir' : t.get? l' ≠ some .directory) :
    Within D P t₀ ((t.erase l).insert l' (.file n)) := by
  have hroot : l ≠ [] := ne_root (by rw [hfile]; exact nofun)
  have hget (k : Location) (e : Entry) (hne : e ≠ .file n)
      (he : ((t.erase l).insert l' (.file n)).get? k = some e) : t.get? k = some e := by
    rw [get?_move hroot (ne_root hdir')] at he
    split at he
    · exact absurd (Option.some.inj he).symm hne
    · split at he
      · cases he
      · exact he
  exact h.step (changed_move hl hl' hfile nofun hdir') (fun k target => hget k (.link target) nofun)
    fun k => hget k .directory nofun

/-! ### Places of paths -/

/-- The places of some paths. -/
def Places (t : FileTree) (files : List Path) (l : Location) : Prop := ∃ q ∈ files, t.PlaceOf q l

/-- The places of the names at the ends of some paths. -/
def Names (t : FileTree) (dirs : List Path) (l : Location) : Prop := ∃ q ∈ dirs, t.NameAt q l

/-- Nothing has changed but that directories were made for some paths. -/
abbrev Furnished (dirs : List Path) (t₀ t : FileTree) : Prop :=
  Kept (t₀.Names dirs) (fun _ => False) t₀ t

/-- What an action on a path can find: the name at its end, or where it leads. -/
def Found (t : FileTree) (q : Path) (l : Location) : Prop :=
  t.resolve q = .ok l ∨ t.resolveName q = .ok l

/-- Whatever was changed at the places of some paths, these paths are found nowhere else. -/
theorem Within.places {files : List Path} {q : Path} (h : Within D (t₀.Places files) t₀ t)
    (hq : q ∈ files) (hl : t.Found q l) : t₀.Places files l := by
  have hlost (hlost : Lost t₀ t l) : t₀.Places files l := by
    obtain ⟨target, hold, hgone⟩ := hlost
    rcases h.changed.name l with hsame | ⟨hl, -⟩ | ⟨-, hnone, -⟩
    · exact absurd (hsame.trans hold) hgone
    · exact hl
    · rw [hnone] at hold
      cases hold
  rcases hl with hl | hl
  · rcases leadsTo_of_resolve h.straight h.changed.current hl with hl | hl
    · exact ⟨q, hq, .inr hl⟩
    · exact hlost hl
  · rcases nameAt_of_resolveName h.straight h.changed.current hl with hl | hl
    · exact ⟨q, hq, .inl hl⟩
    · exact hlost hl

/-- The same, except that a link may have been moved if the path ends in one. -/
structure Loose (D P : Location → Prop) (p : Path) (t₀ t : FileTree) : Prop where
  changed : Changed D P t₀ t
  straight : Straight t₀ t ∨ t₀.IsLink p

theorem Within.loose {p : Path} (h : Within D P t₀ t) : Loose D P p t₀ t :=
  ⟨h.changed, .inl h.straight⟩

end FileTree

/-! ## Actions that end in certain trees -/

section Ends

variable {ε α β : Type} {E : FileTree → Prop} {J : α → FileTree → Prop} {K : β → FileTree → Prop}
  {t : FileTree}

/-- Run on a tree, an action ends in a tree with `E` if it fails, and otherwise with a result and
a tree with `J`. -/
structure Ends (E : FileTree → Prop) (J : α → FileTree → Prop)
    (x : ExceptT ε (StateM FileTree) α) (t : FileTree) : Prop where
  ok : ∀ {a t'}, x.run t = (.ok a, t') → J a t'
  error : ∀ {e t'}, x.run t = (.error e, t') → E t'

theorem Ends.of_ok {x : ExceptT ε (StateM FileTree) α} {a : α} {t' : FileTree}
    (hrun : x.run t = (.ok a, t')) (h : J a t') : Ends E J x t := by
  constructor
  · intro a₁ t₁ hrun₁
    rw [hrun] at hrun₁
    cases hrun₁
    exact h
  · intro e t₁ hrun₁
    rw [hrun] at hrun₁
    cases hrun₁

theorem Ends.of_error {x : ExceptT ε (StateM FileTree) α} {e : ε} {t' : FileTree}
    (hrun : x.run t = (.error e, t')) (h : E t') : Ends E J x t := by
  constructor
  · intro a t₁ hrun₁
    rw [hrun] at hrun₁
    cases hrun₁
  · intro e₁ t₁ hrun₁
    rw [hrun] at hrun₁
    cases hrun₁
    exact h

theorem Ends.pure {a : α} (h : J a t) : Ends E J (pure a : ExceptT ε (StateM FileTree) α) t :=
  .of_ok rfl h

theorem Ends.throw {e : ε} (h : E t) : Ends E J (throw e : ExceptT ε (StateM FileTree) α) t :=
  .of_error rfl h

theorem Ends.modify {f : FileTree → FileTree} {J : Unit → FileTree → Prop} (h : J () (f t)) :
    Ends E J (modify f : ExceptT ε (StateM FileTree) Unit) t :=
  .of_ok rfl h

theorem Ends.set {t' : FileTree} {J : Unit → FileTree → Prop} (h : J () t') :
    Ends E J (set t' : ExceptT ε (StateM FileTree) Unit) t :=
  .of_ok rfl h

/-- Whether it fails or not. -/
theorem Ends.final {x : ExceptT ε (StateM FileTree) α} (hx : Ends E (fun _ => E) x t) :
    E (x.run t).2 := by
  rcases hrun : x.run t with ⟨e | a, t'⟩
  · exact hx.error hrun
  · exact hx.ok hrun

theorem Ends.mono {x : ExceptT ε (StateM FileTree) α} {E' : FileTree → Prop}
    {J' : α → FileTree → Prop} (hx : Ends E J x t) (hE : ∀ t', E t' → E' t')
    (hJ : ∀ a t', J a t' → J' a t') : Ends E' J' x t :=
  ⟨fun hrun => hJ _ _ (hx.ok hrun), fun hrun => hE _ (hx.error hrun)⟩

theorem run_bind_ok {x : ExceptT ε (StateM FileTree) α} {a : α} {t' : FileTree}
    (h : x.run t = (.ok a, t')) (f : α → ExceptT ε (StateM FileTree) β) :
    (x >>= f).run t = (f a).run t' := by
  rw [run_bind, h]

theorem run_bind_error {x : ExceptT ε (StateM FileTree) α} {e : ε} {t' : FileTree}
    (h : x.run t = (.error e, t')) (f : α → ExceptT ε (StateM FileTree) β) :
    (x >>= f).run t = (.error e, t') := by
  rw [run_bind, h]

theorem Ends.bind {x : ExceptT ε (StateM FileTree) α} {f : α → ExceptT ε (StateM FileTree) β}
    (hx : Ends E J x t) (hf : ∀ a t', J a t' → Ends E K (f a) t') : Ends E K (x >>= f) t := by
  rcases hrun : x.run t with ⟨e | a, t'⟩
  · exact .of_error (run_bind_error hrun f) (hx.error hrun)
  · have hrest := hf a t' (hx.ok hrun)
    have hsame := run_bind_ok hrun f
    exact ⟨fun h => hrest.ok (hsame.symm.trans h), fun h => hrest.error (hsame.symm.trans h)⟩

/-- A step that leaves the tree as it is, for its result. -/
theorem Ends.look_bind {x : ExceptT ε (StateM FileTree) α}
    {f : α → ExceptT ε (StateM FileTree) β} {r : Except ε α} (hx : x.run t = (r, t)) (h : E t)
    (hf : ∀ a, r = .ok a → Ends E K (f a) t) : Ends E K (x >>= f) t := by
  cases r with
  | error e => exact .of_error (run_bind_error hx f) h
  | ok a =>
      refine Ends.bind (J := fun a' t' => a' = a ∧ t' = t) (.of_ok hx ⟨rfl, rfl⟩) ?_
      rintro _ _ ⟨rfl, rfl⟩
      exact hf _ rfl

theorem Ends.get_bind {f : FileTree → ExceptT ε (StateM FileTree) β} (hf : Ends E K (f t) t) :
    Ends E K (get >>= f) t :=
  ⟨fun hrun => hf.ok hrun, fun hrun => hf.error hrun⟩

/-- A step that is left out under some condition. -/
theorem Ends.when_bind {I : FileTree → Prop} {c : Prop} [Decidable c]
    {x : ExceptT ε (StateM FileTree) Unit} {f : Unit → ExceptT ε (StateM FileTree) β}
    (hx : Ends E (fun _ => I) x t) (h : I t) (hf : ∀ t', I t' → Ends E K (f ()) t') :
    Ends E K (if c then x >>= f else f ()) t := by
  split
  · exact Ends.bind hx fun _ t' ht' => hf t' ht'
  · exact hf t h

end Ends

namespace Files

variable {α β : Type} {E I : FileTree → Prop} {J : α → FileTree → Prop}
  {K : β → FileTree → Prop} {D P : Location → Prop} {t t₀ : FileTree} {p q : Path}

theorem run_ask (f : FileTree → Except IoError α) (t : FileTree) : (ask f).run t = (f t, t) := by
  unfold ask
  have hget : (get : Files FileTree).run t = (.ok t, t) := rfl
  rw [run_bind, hget]
  cases h : f t <;> simp only [h] <;> rfl

theorem ends_ask_bind {f : FileTree → Except IoError α} {g : α → Files β} (h : E t)
    (hg : ∀ a, f t = .ok a → Ends E K (g a) t) : Ends E K (ask f >>= g) t :=
  Ends.look_bind (run_ask f t) h hg

theorem ends_permit_bind {r : Request} {g : Unit → Files β} (h : E t) (hg : Ends E K (g ()) t) :
    Ends E K (permit r >>= g) t := by
  refine Ends.bind (J := fun _ t' => t' = t) ?_ fun _ t' ht' => ht' ▸ hg
  unfold permit
  refine Ends.get_bind ?_
  split
  · exact Ends.throw h
  · exact Ends.pure rfl

/-! ### Writing -/

section Write

/- What is written is put at the places that are found for a path, which must keep to `P`. -/
variable (hput : ∀ {t l}, I t → P l → t.Writable l → ∀ c, I (t.put l c))
include hput

theorem ends_openEmpty (h : I t) (hp : ∀ l, t.resolve p = .ok l → P l) :
    Ends I (fun place t' => I t' ∧ ∀ l ∈ place, P l ∧ t'.Writable l) (openEmpty p) t := by
  unfold openEmpty
  split
  · exact ends_ask_bind h fun _ _ => Ends.throw h
  · refine ends_ask_bind h fun l hl => Ends.get_bind ?_
    have hopen (hw : t.Writable l) : Ends I (fun place t' => I t' ∧ ∀ l ∈ place,
        P l ∧ t'.Writable l) (do permit (.write l); modify (·.put l []); return some l) t := by
      have hplaced : I (t.put l []) ∧ ∀ l' ∈ some l, P l' ∧ (t.put l []).Writable l' := by
        refine ⟨hput h (hp l hl) hw [], fun l' hl' => ?_⟩
        obtain rfl : l = l' := Option.mem_some.mp hl'
        exact ⟨hp l hl, hw.put []⟩
      exact ends_permit_bind h
        (Ends.bind (J := fun _ t' => t' = t.put l []) (Ends.modify rfl)
          fun _ _ ht' => Ends.pure (ht' ▸ hplaced))
    split
    · exact Ends.throw h
    · exact Ends.throw h
    · exact Ends.pure ⟨h, nofun⟩
    · rename_i n hfile
      exact hopen (.inr ⟨n, hfile⟩)
    · rename_i hnone
      exact hopen (.inl hnone)

theorem ends_fill {place : Option Location} (h : I t)
    (hplace : ∀ l ∈ place, P l ∧ t.Writable l) (c : Bytes) :
    Ends I (fun _ => I) (fill place c) t := by
  unfold fill
  split
  · exact Ends.pure h
  · rename_i l
    obtain ⟨hl, hw⟩ := hplace l rfl
    exact ends_permit_bind h (Ends.modify (hput h hl hw c))

theorem ends_write (h : I t) (hp : ∀ l, t.resolve p = .ok l → P l) (c : Bytes) :
    Ends I (fun _ => I) (write p c) t :=
  Ends.bind (ends_openEmpty hput h hp) fun _ _ h' => ends_fill hput h'.1 h'.2 c

theorem ends_copy (h : I t) (hq : ∀ l, t.resolve q = .ok l → P l) :
    Ends I (fun _ => I) (copy p q) t := by
  refine ends_ask_bind h fun _ _ => Ends.bind (ends_openEmpty hput h hq) fun _ _ h' => ?_
  exact ends_ask_bind h'.1 fun c _ => ends_fill hput h'.1 h'.2 c

end Write

/-! ### Making directories -/

section Directories

variable {dirs : List Path}

theorem ends_makeDirectory (hp : p ∈ dirs) (h : t₀.Furnished dirs t) :
    Ends (t₀.Furnished dirs) (fun _ => t₀.Furnished dirs) (makeDirectory p) t := by
  unfold makeDirectory
  refine ends_ask_bind h fun l hl => Ends.get_bind ?_
  split
  · exact Ends.throw h
  · rename_i hnone
    have hold : t₀.get? l = none := h.get?_eq_none hnone
    have hname := FileTree.nameAt_of_resolveBare h.links.straight h.changed.current hl hold
    exact ends_permit_bind h (Ends.modify (h.insert_directory ⟨p, hp, hname⟩ hnone))

theorem ends_ensureDirectory (hp : p ∈ dirs) (h : t₀.Furnished dirs t) :
    Ends (t₀.Furnished dirs) (fun _ => t₀.Furnished dirs) (ensureDirectory p) t := by
  unfold ensureDirectory
  refine Ends.get_bind ?_
  split
  · rename_i t' hrun
    exact Ends.set ((ends_makeDirectory hp h).ok hrun)
  · -- the tree of the failed attempt is not kept
    refine Ends.get_bind ?_
    split
    · exact Ends.pure h
    · exact Ends.throw h

theorem ends_ensureDirectories {ps : List Path} (hps : ps ⊆ dirs) (h : t₀.Furnished dirs t) :
    Ends (t₀.Furnished dirs) (fun _ => t₀.Furnished dirs) (ensureDirectories ps) t := by
  induction ps generalizing t with
  | nil => exact Ends.pure h
  | cons p above ih =>
      have hp : p ∈ dirs := hps List.mem_cons_self
      have habove : above ⊆ dirs := fun q hq => hps (List.mem_cons_of_mem p hq)
      unfold ensureDirectories
      split
      · exact Ends.pure h
      · refine Ends.get_bind ?_
        split
        · rename_i t' hrun
          exact Ends.set ((ends_ensureDirectory hp h).ok hrun)
        · exact Ends.bind (ih habove h) fun _ _ => ends_ensureDirectory hp
        · exact Ends.throw h

end Directories

/-! ### Removing and moving -/

theorem ends_remove (h : t₀.Within D P t) (hp : ∀ l, t.resolveName p = .ok l → P l) :
    Ends (t₀.Within D P) (fun _ => t₀.Within D P) (remove p) t := by
  unfold remove
  refine ends_ask_bind h fun l hl => Ends.get_bind ?_
  split
  · exact Ends.throw h
  · exact Ends.throw h
  · exact Ends.throw h
  · rename_i e hdir _ hentry
    refine ends_permit_bind h (Ends.modify (h.erase (hp l hl) ?_))
    rw [hentry]
    exact fun he => hdir (Option.some.inj he)

/-- If it removes anything, this is a name at the end of the path, wherever that is now. -/
theorem ends_remove_somewhere (t : FileTree) (p : Path) :
    Ends (· = t) (fun _ t' => ∃ l, t.NameAt p l ∧ t' = t.erase l) (remove p) t := by
  unfold remove
  refine ends_ask_bind rfl fun l hl => Ends.get_bind ?_
  have hname : t.NameAt p l :=
    (FileTree.nameAt_of_resolveName (.refl t) rfl hl).resolve_right (t.not_lost l)
  split
  · exact Ends.throw rfl
  · exact Ends.throw rfl
  · exact Ends.throw rfl
  · exact ends_permit_bind rfl (Ends.modify ⟨l, hname, rfl⟩)

theorem ends_rename (h : t₀.Within D P t) (hp : ∀ l, t.resolveName p = .ok l → P l)
    (hq : ∀ l, t.resolveName q = .ok l → P l) :
    Ends (fun _ => True) (fun _ => t₀.Loose D P p) (rename p q) t := by
  unfold rename
  refine ends_ask_bind trivial fun l hl => ends_ask_bind trivial fun l' hl' => ?_
  refine ends_permit_bind trivial (Ends.get_bind (Ends.get_bind ?_))
  split
  · exact Ends.throw trivial
  · exact Ends.throw trivial
  · exact Ends.throw trivial
  · exact Ends.throw trivial
  · rename_i e hdir hdevice hentry hother
    split
    · exact Ends.pure h.loose
    · cases e with
      | file n => exact Ends.modify (h.move (hp l hl) (hq l' hl') hentry hother).loose
      | link target =>
          have hold : t₀.get? l = some (.link target) := h.straight.old l target hentry
          have hmoved := FileTree.changed_move (D := D) (hp l hl) (hq l' hl') hentry nofun hother
          refine Ends.modify ⟨h.changed.trans hmoved, .inr ⟨l, target, ?_, hold⟩⟩
          rcases FileTree.nameAt_of_resolveName h.straight h.changed.current hl with hname | hlost
          · exact hname
          · obtain ⟨target', hold', hgone⟩ := hlost
            rw [hold] at hold'
            cases hold'
            exact absurd hentry hgone
      | directory => exact absurd rfl hdir
      | device => exact absurd rfl hdevice

end Files

end Dam
