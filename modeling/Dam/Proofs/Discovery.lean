import Dam.Manifest.Toml
import Dam.Proofs.Locations

/-!
# Finding the manifest

The search for a manifest goes up from a directory, but what it works on is the spelling of a path,
from which it takes one component after another. `Climbs` is that search as the run of a loop, and
it ends for every path, because a path has finitely many components (`climbs_discover`).

The law, on the other hand, is about directories: the manifest that counts is the one in the
innermost directory that holds one (`Nearest`). The two agree as long as each component that is
taken away leads one directory up or nowhere. That leaves out `..`, which is taken away like a name,
so that the search goes on *below* the directory it began in. It also bounds the search: the
components of a relative path end at the current directory.
-/

namespace Dam

/-! ## Ways through directories -/

namespace FileTree

variable {t : FileTree} {base l m : Location} {s : String} {w w' : List String} {p q : Path}

/-- The pieces of a path lead from one directory to another one, through directories. -/
def Leads (t : FileTree) (base : Location) (w : List String) (l : Location) : Prop :=
  w.foldlM t.enter base = .ok l ∧ t.get? l = some .directory

theorem leads_nil : t.Leads base [] l ↔ base = l ∧ t.get? l = some .directory :=
  and_congr_left' ⟨Except.ok.inj, congrArg Except.ok⟩

theorem leads_cons : t.Leads base (s :: w) l ↔ ∃ m, t.enter base s = .ok m ∧ t.Leads m w l := by
  unfold Leads
  rw [List.foldlM_cons]
  cases hs : t.enter base s with
  | error e =>
      constructor
      · intro h
        cases h.1
      · rintro ⟨m, hm, -⟩
        cases hm
  | ok m =>
      constructor
      · exact fun h => ⟨m, rfl, h⟩
      · rintro ⟨m', hm, h⟩
        cases hm
        exact h

theorem enter_trivial (hl : t.get? l = some .directory) (hs : Path.isTrivial s = true) :
    t.enter l s = .ok l := by
  unfold enter
  rw [hl]
  exact if_pos hs

theorem enter_name (hl : t.get? l = some .directory) (hs : Path.IsName s)
    (hlength : s.utf8ByteSize ≤ nameLimit) : t.enter l s = .ok (s :: l) := by
  unfold enter
  rw [hl]
  exact (if_neg (by simp [hs.1])).trans ((if_neg hs.2).trans (if_neg (Nat.not_lt.mpr hlength)))

theorem Leads.start (h : t.Leads base w l) : t.get? base = some .directory := by
  cases w with
  | nil =>
      obtain ⟨rfl, hl⟩ := leads_nil.mp h
      exact hl
  | cons s w =>
      obtain ⟨m, hm, -⟩ := leads_cons.mp h
      exact directory_of_enter hm

theorem leads_append :
    t.Leads base (w ++ w') l ↔ ∃ m, t.Leads base w m ∧ t.Leads m w' l := by
  induction w generalizing base with
  | nil =>
      constructor
      · exact fun h => ⟨base, leads_nil.mpr ⟨rfl, h.start⟩, h⟩
      · rintro ⟨m, hm, h⟩
        obtain ⟨rfl, -⟩ := leads_nil.mp hm
        exact h
  | cons s w ih =>
      rw [List.cons_append, leads_cons]
      constructor
      · rintro ⟨m₁, hs, h⟩
        obtain ⟨m, hm, h⟩ := ih.mp h
        exact ⟨m, leads_cons.mpr ⟨m₁, hs, hm⟩, h⟩
      · rintro ⟨m, hm, h⟩
        obtain ⟨m₁, hs, hm⟩ := leads_cons.mp hm
        exact ⟨m₁, hs, ih.mpr ⟨m, hm, h⟩⟩

/-- Trivial pieces do not count, because a way goes through directories only. -/
theorem leads_filter : t.Leads base (w.filter fun s => !Path.isTrivial s) l ↔ t.Leads base w l := by
  induction w generalizing base with
  | nil => rfl
  | cons s w ih =>
      by_cases hs : Path.isTrivial s = true
      · rw [List.filter_cons_of_neg (by simp [hs]), ih, leads_cons]
        constructor
        · exact fun h => ⟨base, enter_trivial h.start hs, h⟩
        · rintro ⟨m, hm, h⟩
          have hstay := move_of_enter hm
          rw [Path.move, if_pos hs] at hstay
          exact hstay ▸ h
      · rw [List.filter_cons_of_pos (by simp [hs]), leads_cons, leads_cons]
        exact exists_congr fun m => and_congr_right' ih

theorem leads_congr (h : (w.filter fun s => !Path.isTrivial s) =
    w'.filter fun s => !Path.isTrivial s) : t.Leads base w l ↔ t.Leads base w' l := by
  rw [← leads_filter, h, leads_filter]

/-- Without `..`, a way leads inwards. -/
theorem Leads.suffix (hup : ".." ∉ w) (h : t.Leads base w l) : base <:+ l := by
  rw [← foldl_move_of_enter h.1]
  exact Path.suffix_foldl_move hup base

theorem leads_of_isDirectory (hlinks : t.NoLinks) (h : t.isDirectory p = true) :
    checkSpelling p = .ok () ∧ t.Leads (p.root t.current) p.segments (p.locate t.current) := by
  unfold isDirectory entry? at h
  cases hr : t.resolve p with
  | error e =>
      rw [hr] at h
      cases h
  | ok l =>
      rw [locate_of_resolve hlinks hr]
      rw [hr] at h
      have hl : t.get? l = some .directory := by
        dsimp only at h
        split at h
        · assumption
        · cases h
      unfold resolve at hr
      cases hs : checkSpelling p with
      | error e => rw [hs] at hr; cases hr
      | ok _ =>
          rw [hs] at hr
          exact ⟨rfl, (follow_eq_foldlM hlinks true p p.segments).symm.trans hr, hl⟩

/-- A name in a directory is found, whether or not there is an entry. -/
theorem resolve_join_name (hlinks : t.NoLinks) {name : String} (hq : q.segments = [name])
    (hname : Path.IsName name)
    (hlength : name.utf8ByteSize ≤ nameLimit) (hspelling : checkSpelling (p.join q) = .ok ())
    (h : t.Leads (p.root t.current) p.segments l) : t.resolve (p.join q) = .ok (name :: l) := by
  obtain ⟨front, hfront, hp⟩ := Path.segments_join_name (p := p) hq
  have hwalk : t.Leads (p.root t.current) front l := by
    rcases hp with hp | ⟨hp, -⟩
    · refine (leads_congr ?_).mp h
      rw [hp, List.filter_append]
      exact List.append_nil _
    · exact hp ▸ h
  have hroot : (p.join q).root t.current = p.root t.current := by
    unfold Path.root
    rw [Path.isAbsolute_join_name hq]
  unfold resolve
  rw [hspelling]
  change t.follow true _ _ = _
  rw [follow_eq_foldlM hlinks, hfront, hroot, List.foldlM_append, hwalk.1]
  change [name].foldlM t.enter l = _
  rw [List.foldlM_cons, enter_name hwalk.2 hname hlength]
  rfl

end FileTree

/-! ## The law -/

namespace Manifest

variable {read : Reader} {t : FileTree} {outer dir near : Location} {p : Path}
  {r r' : Except ManifestError (Option (Path × Manifest))}

/-- There is a manifest in the directory, whether or not it can be read. -/
def Holds (t : FileTree) (dir : Location) : Prop :=
  ∃ n, t.get? (fileName :: dir) = some (.file n)

/-- The settings that the manifest in a directory gives, if it can be read. -/
def settings? (read : Reader) (t : FileTree) (dir : Location) : Option Manifest :=
  match t.readAt (fileName :: dir) with
  | .ok content => Utf8.decode? content >>= read
  | .error _ => none

/-- The innermost directory with a manifest, from `dir` outwards to `outer`. -/
structure Nearest (t : FileTree) (outer dir near : Location) : Prop where
  within : outer <:+ near
  around : near <:+ dir
  holds : Holds t near
  innermost : ∀ d, near <:+ d → d <:+ dir → Holds t d → d = near

/-- What may come of looking for a manifest from `dir` outwards to `outer`: nothing if there is
none, and otherwise the settings of the nearest one, or a failure if that one cannot be read. -/
structure Discovers (read : Reader) (t : FileTree) (outer dir : Location)
    (r : Except ManifestError (Option (Path × Manifest))) : Prop where
  absent : r = .ok none ↔ ∀ d, outer <:+ d → d <:+ dir → ¬ Holds t d
  found : ∀ m, (∃ p, r = .ok (some (p, m))) ↔
    ∃ near, Nearest t outer dir near ∧ settings? read t near = some m
  fails : (∃ e, r = .error e) ↔ ∃ near, Nearest t outer dir near ∧ settings? read t near = none
  /-- The path in the answer is that of the nearest manifest. -/
  place : ∀ p m, r = .ok (some (p, m)) →
    ∃ near, Nearest t outer dir near ∧ p.locate t.current = fileName :: near

theorem Nearest.unique {near' : Location} (h : Nearest t outer dir near)
    (h' : Nearest t outer dir near') : near' = near := by
  rcases List.suffix_or_suffix_of_suffix h.around h'.around with hle | hle
  · exact h.innermost near' hle h'.around h'.holds
  · exact (h'.innermost near hle h.around h.holds).symm

theorem discovers_absent (h : ∀ d, outer <:+ d → d <:+ dir → ¬ Holds t d) :
    Discovers read t outer dir (.ok none) := by
  have hnear (near : Location) : ¬ Nearest t outer dir near :=
    fun hn => h near hn.within hn.around hn.holds
  refine ⟨⟨fun _ => h, fun _ => rfl⟩, fun m => ?_, ?_, fun p m hp => ?_⟩
  · simp [hnear]
  · simp [hnear]
  · cases hp

/-- Reading a manifest gives the settings of its directory. -/
theorem load_of_resolve (read : Reader) (hr : t.resolve p = .ok (fileName :: dir)) :
    (load read t p).toOption = settings? read t dir := by
  have hread : t.read p = t.readAt (fileName :: dir) := by
    unfold FileTree.read
    rw [hr]
    rfl
  unfold load settings? FileTree.readText
  rw [hread]
  cases t.readAt (fileName :: dir) with
  | error e => rfl
  | ok content =>
      simp only [bind, Except.bind, Option.bind]
      cases Utf8.decode? content with
      | none => rfl
      | some text =>
          dsimp only
          cases read text with
          | none => rfl
          | some m => rfl

theorem discovers_nearest (hlinks : t.NoLinks) (hnear : Nearest t outer dir near)
    (hr : t.resolve p = .ok (fileName :: near)) :
    Discovers read t outer dir ((load read t p).map fun m => some (p, m)) := by
  have hload := load_of_resolve read hr
  have hsome : ¬ ∀ d, outer <:+ d → d <:+ dir → ¬ Holds t d :=
    fun h => h near hnear.within hnear.around hnear.holds
  have hsettings (x : Option Manifest) :
      (∃ near, Nearest t outer dir near ∧ settings? read t near = x) ↔
        settings? read t near = x := by
    constructor
    · rintro ⟨near', hnear', hx⟩
      exact hnear.unique hnear' ▸ hx
    · exact fun hx => ⟨near, hnear, hx⟩
  cases hl : load read t p with
  | error e =>
      have hs : settings? read t near = none := by rw [← hload, hl]; rfl
      change Discovers read t outer dir (.error e)
      refine ⟨⟨fun h => (by cases h), fun h => absurd h hsome⟩, fun m => ?_, ?_, fun p m h => ?_⟩
      · simp [hsettings, hs]
      · simp [hsettings, hs]
      · cases h
  | ok m =>
      have hs : settings? read t near = some m := by rw [← hload, hl]; rfl
      change Discovers read t outer dir (.ok (some (p, m)))
      refine ⟨⟨fun h => (by cases h), fun h => absurd h hsome⟩, fun m' => ?_, ?_, fun p m h => ?_⟩
      · simp [hsettings, hs]
      · simp [hsettings, hs]
      · cases h
        exact ⟨near, hnear, FileTree.locate_of_resolve hlinks hr⟩

/-- A directory without a manifest is passed by. -/
theorem Discovers.outwards {name : String} (hnone : ¬ Holds t (name :: dir))
    (h : Discovers read t outer dir r) : Discovers read t outer (name :: dir) r := by
  have hnear (near : Location) : Nearest t outer (name :: dir) near ↔ Nearest t outer dir near := by
    constructor
    · intro hn
      rcases List.suffix_cons_iff.mp hn.around with rfl | haround
      · exact absurd hn.holds hnone
      · exact ⟨hn.within, haround, hn.holds,
          fun d hd hdir => hn.innermost d hd (hdir.trans (List.suffix_cons name dir))⟩
    · intro hn
      refine ⟨hn.within, hn.around.trans (List.suffix_cons name dir), hn.holds, fun d hd hdir => ?_⟩
      rcases List.suffix_cons_iff.mp hdir with rfl | hdir
      · exact fun hholds => absurd hholds hnone
      · exact hn.innermost d hd hdir
  have habsent : (∀ d, outer <:+ d → d <:+ name :: dir → ¬ Holds t d) ↔
      ∀ d, outer <:+ d → d <:+ dir → ¬ Holds t d := by
    constructor
    · exact fun hd d houter hdir => hd d houter (hdir.trans (List.suffix_cons name dir))
    · intro hd d houter hdir
      rcases List.suffix_cons_iff.mp hdir with rfl | hdir
      · exact hnone
      · exact hd d houter hdir
  constructor
  · rw [habsent]
    exact h.absent
  · simpa only [hnear] using h.found
  · simpa only [hnear] using h.fails
  · simpa only [hnear] using h.place

/-- The law leaves nothing open but the spelling of the path. -/
theorem Discovers.same (h : Discovers read t outer dir r) (h' : Discovers read t outer dir r') :
    r'.toOption.map (Option.map Prod.snd) = r.toOption.map (Option.map Prod.snd) := by
  rcases r with e | _ | ⟨p, m⟩
  · obtain ⟨e', rfl⟩ := h'.fails.mpr (h.fails.mp ⟨e, rfl⟩)
    rfl
  · rw [h'.absent.mpr (h.absent.mp rfl)]
  · obtain ⟨p', rfl⟩ := (h'.found m).mpr ((h.found m).mp ⟨p, rfl⟩)
    rfl

/-! ## The climb -/

/-- Where a manifest is looked for in a directory. -/
def candidate (dir : Path) : Path := dir.join (Path.ofText fileName)

/-- The search from a path ends with a result: the manifest there is read, or else the search goes
on without the last component, until there is none. -/
inductive Climbs (read : Reader) (t : FileTree) :
    Path → Except ManifestError (Option (Path × Manifest)) → Prop
  | found {p : Path} (h : t.isFile (candidate p) = true) :
      Climbs read t p ((load read t (candidate p)).map fun m => some (candidate p, m))
  | top {p : Path} (h : t.isFile (candidate p) = false) (htop : p.parent? = none) :
      Climbs read t p (.ok none)
  | up {p q : Path} {r : Except ManifestError (Option (Path × Manifest))}
      (h : t.isFile (candidate p) = false) (hup : p.parent? = some q) (hq : Climbs read t q r) :
      Climbs read t p r

/-- Among more paths than there are components, the search comes to an end. -/
theorem climbs_of_find? {n : Nat} (hn : p.components.length < n)
    (hnone : ((p.ancestorsUpTo n).map candidate).find? t.isFile = none → r = .ok none)
    (hsome : ∀ c, ((p.ancestorsUpTo n).map candidate).find? t.isFile = some c →
      r = (load read t c).map fun m => some (c, m)) : Climbs read t p r := by
  induction n generalizing p with
  | zero => exact absurd hn (Nat.not_lt_zero _)
  | succ n ih =>
      unfold Path.ancestorsUpTo at hnone hsome
      rw [List.map_cons] at hnone hsome
      cases hfile : t.isFile (candidate p) with
      | true =>
          rw [hsome _ (List.find?_cons_of_pos hfile)]
          exact .found hfile
      | false =>
          rw [List.find?_cons_of_neg (by simp [hfile])] at hnone hsome
          cases hparent : p.parent? with
          | none =>
              rw [hparent] at hnone
              rw [hnone rfl]
              exact .top hfile hparent
          | some q =>
              rw [hparent] at hnone hsome
              refine .up hfile hparent (ih ?_ hnone hsome)
              obtain ⟨x, hx⟩ := Path.components_of_parent? hparent
              rw [hx, List.length_append, List.length_singleton] at hn
              exact Nat.lt_of_succ_lt_succ hn

/-- **The search always ends.** -/
theorem climbs_discover (read : Reader) (t : FileTree) (p : Path) :
    Climbs read t p (discover read t p) := by
  have hlength : p.components.length < p.segments.length + 1 :=
    Nat.lt_succ_of_le p.components_sublist.length_le
  refine climbs_of_find? hlength (fun h => ?_) fun c h => ?_
  · unfold discover
    rw [show (candidates p).find? t.isFile = none from h]
  · unfold discover
    rw [show (candidates p).find? t.isFile = some c from h]

/-! ## From spellings to directories -/

/-- There is room for the name of a manifest behind the spelling, which has no zero in it. -/
structure Spellable (p : Path) : Prop where
  room : p.text.utf8ByteSize + 9 ≤ FileTree.pathLimit
  zero : '\x00' ∉ p.text.toList

theorem Spellable.parent {q : Path} (h : Spellable p) (hq : p.parent? = some q) : Spellable q := by
  obtain ⟨rest, hrest⟩ := Path.text_of_parent? hq
  have hroom := h.room
  have hzero := h.zero
  rw [hrest, String.utf8ByteSize_append] at hroom
  rw [hrest, String.toList_append, List.mem_append, not_or] at hzero
  exact ⟨by omega, hzero.1⟩

theorem segments_fileName : (Path.ofText fileName).segments = [fileName] :=
  Path.segments_ofText (by decide)

theorem isName_fileName : Path.IsName fileName := ⟨by decide, by decide⟩

theorem checkSpelling_candidate (h : Spellable p) :
    FileTree.checkSpelling (candidate p) = .ok () := by
  obtain ⟨slash, hslash, htext⟩ := Path.text_join_name (p := p) segments_fileName
  have hzero : '\x00' ∉ (candidate p).text.toList := by
    unfold candidate
    rw [htext, String.toList_append, String.toList_append, List.mem_append, List.mem_append]
    rintro ((hp | hs) | hname)
    · exact h.zero hp
    · rcases hslash with rfl | rfl
      · exact absurd hs (by decide)
      · exact absurd hs (by decide)
    · exact absurd hname (by decide)
  have hroom : (candidate p).text.utf8ByteSize ≤ FileTree.pathLimit := by
    have hp := h.room
    have hname : fileName.utf8ByteSize = 8 := by decide
    unfold candidate
    rw [htext, String.utf8ByteSize_append, String.utf8ByteSize_append, hname]
    rcases hslash with rfl | rfl
    · have hs : "".utf8ByteSize = 0 := by decide
      omega
    · have hs : "/".utf8ByteSize = 1 := by decide
      omega
  have hempty : (candidate p).isEmpty = false := by
    obtain ⟨front, hfront, -⟩ := Path.segments_join_name (p := p) segments_fileName
    unfold Path.isEmpty
    rw [beq_eq_false_iff_ne]
    intro he
    have hlast := congrArg (fun q : Path => q.segments.getLast?) he
    change (candidate p).segments.getLast? = some "" at hlast
    unfold candidate at hlast
    rw [hfront, List.getLast?_concat] at hlast
    exact absurd hlast (by decide)
  unfold FileTree.checkSpelling
  rw [if_neg (by simpa using hzero), hempty, if_neg Bool.false_ne_true,
    if_neg (Nat.not_lt.mpr hroom)]

theorem resolve_candidate (hlinks : t.NoLinks) (hs : Spellable p)
    (h : t.Leads (p.root t.current) p.components dir) :
    t.resolve (candidate p) = .ok (fileName :: dir) :=
  FileTree.resolve_join_name hlinks segments_fileName isName_fileName (by decide)
    (checkSpelling_candidate hs) ((FileTree.leads_congr p.filter_components).mp h)

theorem isFile_candidate (hlinks : t.NoLinks) (hs : Spellable p)
    (h : t.Leads (p.root t.current) p.components dir) :
    t.isFile (candidate p) = true ↔ Holds t dir := by
  unfold FileTree.isFile FileTree.entry? Holds
  rw [resolve_candidate hlinks hs h]
  dsimp only
  split
  · rename_i content hfile
    exact ⟨fun _ => ⟨content, hfile⟩, fun _ => rfl⟩
  · rename_i hother
    constructor
    · intro hfile
      cases hfile
    · rintro ⟨content, hfile⟩
      exact absurd hfile (hother content)

/-- **The search obeys the law** as long as no component leads up. -/
theorem discovers_of_climbs (hlinks : t.NoLinks) (hs : Spellable p)
    (h : t.Leads (p.root t.current) p.components dir)
    (hup : ".." ∉ p.components) (hr : Climbs read t p r) :
    Discovers read t (p.root t.current) dir r := by
  induction hr generalizing dir with
  | @found p hfile =>
      have hnear : Nearest t (p.root t.current) dir dir :=
        ⟨h.suffix hup, List.suffix_rfl, (isFile_candidate hlinks hs h).mp hfile,
          fun d hd hdir _ => hdir.eq_of_length_le hd.length_le⟩
      exact discovers_nearest hlinks hnear (resolve_candidate hlinks hs h)
  | @top p hfile htop =>
      have hnone : ¬ Holds t dir :=
        fun hd => Bool.eq_false_iff.mp hfile ((isFile_candidate hlinks hs h).mpr hd)
      -- without a component that leads anywhere, this is where the path starts
      have htrivial : ∀ s ∈ p.components, Path.isTrivial s = true := by
        intro s hmem
        rw [Path.components_of_no_parent htop s hmem]
        rfl
      have hdir : p.root t.current = dir :=
        (Path.foldl_move_trivial htrivial _).symm.trans (FileTree.foldl_move_of_enter h.1)
      refine discovers_absent fun d houter hd => ?_
      rw [hdir] at houter
      rw [hd.eq_of_length_le houter.length_le]
      exact hnone
  | @up p q r hfile hparent _ ih =>
      have hnone : ¬ Holds t dir :=
        fun hd => Bool.eq_false_iff.mp hfile ((isFile_candidate hlinks hs h).mpr hd)
      have hroot : q.root t.current = p.root t.current := by
        unfold Path.root
        rw [Path.isAbsolute_of_parent? hparent]
      obtain ⟨x, hcomponents⟩ := Path.components_of_parent? hparent
      rw [hcomponents, List.mem_append, not_or] at hup
      rw [hcomponents] at h
      obtain ⟨m, hm, hlast⟩ := FileTree.leads_append.mp h
      have hmove : Path.move m x = dir := FileTree.foldl_move_of_enter hlast.1
      have hx : x ≠ ".." := fun he => hup.2 (List.mem_singleton.mpr he.symm)
      have hq : Discovers read t (p.root t.current) m r :=
        hroot ▸ ih (hs.parent hparent) (hroot ▸ hm) hup.1
      -- what was taken away was a name, or else it led nowhere
      rcases Path.move_cases hx m with hstay | hname
      · rw [← hmove, hstay]
        exact hq
      · rw [← hmove, hname] at hnone ⊢
        exact hq.outwards hnone

theorem spellable_of_checkSpelling (h : FileTree.checkSpelling p = .ok ())
    (hroom : p.text.utf8ByteSize + 9 ≤ FileTree.pathLimit) : Spellable p := by
  refine ⟨hroom, fun hzero => ?_⟩
  unfold FileTree.checkSpelling at h
  rw [if_pos (by simpa using hzero)] at h
  cases h

theorem discovers_discover (read : Reader) {start : Path} (hlinks : t.NoLinks) (hdir : t.isDirectory start = true)
    (hroom : start.text.utf8ByteSize + 9 ≤ FileTree.pathLimit) (hup : ".." ∉ start.segments) :
    Discovers read t (start.root t.current) (start.locate t.current) (discover read t start) := by
  obtain ⟨hspelling, hleads⟩ := FileTree.leads_of_isDirectory hlinks hdir
  exact discovers_of_climbs hlinks (spellable_of_checkSpelling hspelling hroom)
    ((FileTree.leads_congr start.filter_components).mpr hleads)
    (fun hmem => hup (start.components_sublist.subset hmem)) (climbs_discover read t start)

/-- **The nearest manifest is found.** From a directory that is spelled without `..`, the search
ends with the nearest manifest in it or around it: up to the root of the tree if the spelling
starts there, and otherwise up to the current directory. Two such spellings of a directory, if both
or none of them start at the root, give the same settings. -/
theorem discover_nearest (read : Reader) {start : Path} (hlinks : t.NoLinks)
    (hdir : t.isDirectory start = true) (hroom : start.text.utf8ByteSize + 9 ≤ FileTree.pathLimit)
    (hup : ".." ∉ start.segments) :
    Climbs read t start (discover read t start) ∧
    Discovers read t (if start.isAbsolute then [] else t.current) (start.locate t.current)
      (discover read t start) ∧
    ∀ start' : Path, t.isDirectory start' = true →
      start'.text.utf8ByteSize + 9 ≤ FileTree.pathLimit → ".." ∉ start'.segments →
      start'.isAbsolute = start.isAbsolute → start'.locate t.current = start.locate t.current →
      (discover read t start').toOption.map (Option.map Prod.snd) =
        (discover read t start).toOption.map (Option.map Prod.snd) := by
  have hstart := discovers_discover read hlinks hdir hroom hup
  refine ⟨climbs_discover read t start, hstart, ?_⟩
  intro start' hdir' hroom' hup' habsolute hlocate
  have hstart' := discovers_discover read hlinks hdir' hroom' hup'
  unfold Path.root at hstart hstart'
  rw [habsolute, hlocate] at hstart'
  exact hstart.same hstart'

/-- Directories `/w/a/b` with a manifest in `/w/a`, as seen from some directory. -/
def camp (current : Location) : FileTree where
  entries := [(["w"], .directory), (["a", "w"], .directory), (["b", "a", "w"], .directory),
    (["dam.toml", "a", "w"], .file 1)]
  contents := [(1, [])]
  current := current

theorem noLinks_camp (current : Location) : (camp current).NoLinks :=
  FileTree.noLinks_of_entries (by simp [camp])

theorem discover_nearest_camp :
    ((camp ["w"]).NoLinks ∧ (camp ["w"]).isDirectory (.ofText "/w//a/b/.") = true ∧
      (camp ["w"]).isDirectory (.ofText "/w/a/./b") = true) ∧
    discover parse? (camp ["w"]) (.ofText "/w//a/b/.") =
      .ok (some (.ofText "/w//a/dam.toml", default)) ∧
    Discovers parse? (camp ["w"]) [] ["b", "a", "w"]
      (discover parse? (camp ["w"]) (.ofText "/w//a/b/.")) ∧
    (discover parse? (camp ["w"]) (.ofText "/w/a/./b")).toOption.map (Option.map Prod.snd) =
      (discover parse? (camp ["w"]) (.ofText "/w//a/b/.")).toOption.map (Option.map Prod.snd) := by
  have hdir : (camp ["w"]).isDirectory (.ofText "/w//a/b/.") = true := by decide +kernel
  have h := discover_nearest parse? (noLinks_camp ["w"]) hdir (by decide +kernel)
    (by decide +kernel)
  refine ⟨⟨noLinks_camp _, hdir, by decide +kernel⟩, by decide +kernel, h.2.1, ?_⟩
  exact h.2.2 (.ofText "/w/a/./b") (by decide +kernel) (by decide +kernel) (by decide +kernel)
    (by decide +kernel) (by decide +kernel)

/-- The law fails for other spellings. `a/..` is where `a` is, yet the manifest in `a` is found; and
from the current directory, spelled `.`, the manifest in the directory around it is not. -/
theorem discover_strays :
    (camp ["w"]).isDirectory (.ofText "a/..") = true ∧
    (Path.ofText "a/..").locate ["w"] = ["w"] ∧
    discover parse? (camp ["w"]) (.ofText "a/..") = .ok (some (.ofText "a/dam.toml", default)) ∧
    ¬ Discovers parse? (camp ["w"]) [] ["w"] (discover parse? (camp ["w"]) (.ofText "a/..")) ∧
    (camp ["b", "a", "w"]).isDirectory (.ofText ".") = true ∧
    ¬ Discovers parse? (camp ["b", "a", "w"]) [] ["b", "a", "w"]
      (discover parse? (camp ["b", "a", "w"]) (.ofText ".")) := by
  have hdown : discover parse? (camp ["w"]) (.ofText "a/..") =
      .ok (some (.ofText "a/dam.toml", default)) := by decide +kernel
  have hstop : discover parse? (camp ["b", "a", "w"]) (.ofText ".") = .ok none := by decide +kernel
  refine ⟨by decide +kernel, by decide +kernel, hdown, fun h => ?_, by decide +kernel, fun h => ?_⟩
  · obtain ⟨near, hnear, hplace⟩ := h.place _ _ hdown
    have hlocate : (Path.ofText "a/dam.toml").locate (camp ["w"]).current =
        ["dam.toml", "a", "w"] := by decide +kernel
    rw [hlocate] at hplace
    obtain rfl : ["a", "w"] = near := (List.cons.inj hplace).2
    exact absurd hnear.around.length_le (by decide)
  · exact h.absent.mp hstop ["a", "w"] List.nil_suffix (List.suffix_cons "b" _) ⟨1, rfl⟩

end Manifest

end Dam
