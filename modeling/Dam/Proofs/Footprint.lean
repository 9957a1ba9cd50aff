import Dam.Build
import Dam.Proofs.FileActions

/-!
# What a build touches

A build writes, moves and removes files, and it can fail between any two of these steps. Whatever
it returns, it has changed names at the places of its outputs only, and made directories for them
(`Build.Spares`). So the source file is safe unless an output has its place, which is a matter of
names and of links.

Two things go beyond what the list of outputs says. The directories that are made are those in the
spelling of the output directory, so `a/../b` leaves a directory `a` behind. And if the class file
that is moved is a link, then a link stands where none was, and the way to the class text, which is
removed next, may lead through it.
-/

namespace Dam

/-! ## Steps of a build -/

namespace Build

variable {α : Type} {E : FileTree → Prop} {J : α → FileTree → Prop} {D : Location → Prop}
  {files : List Path} {t t₀ : FileTree} {p q : Path}

theorem run_ofExcept (x : Except BuildError α) (t : FileTree) : (ofExcept x).run t = (x, t) := by
  cases x <;> rfl

theorem run_attempt (action : FileAction) (p : Path) (x : Files α) (t : FileTree) :
    (attempt action p x).run t = ((x.run t).1.mapError (.io action p), (x.run t).2) :=
  rfl

theorem run_attempt_ask (action : FileAction) (p : Path) (f : FileTree → Except IoError α)
    (t : FileTree) :
    (attempt action p (Files.ask f)).run t = ((f t).mapError (.io action p), t) := by
  rw [run_attempt, Files.run_ask]

theorem ends_attempt {x : Files α} (hx : Ends E J x t) (action : FileAction) (p : Path) :
    Ends E J (attempt action p x) t := by
  have hrun := run_attempt action p x t
  rcases hx' : x.run t with ⟨e | a, t'⟩
  · rw [hx'] at hrun
    exact .of_error hrun (hx.error hx')
  · rw [hx'] at hrun
    exact .of_ok hrun (hx.ok hx')

/-- Whether the file is renamed, or copied and removed because that was refused. -/
theorem ends_relocate (h : t₀.Within D (t₀.Places files) t) (hp : p ∈ files) (hq : q ∈ files) :
    Ends (t₀.Loose D (t₀.Places files) p) (fun _ => t₀.Loose D (t₀.Places files) p)
      (relocate p q) t := by
  unfold relocate
  refine Ends.get_bind ?_
  split
  · rename_i t' hrun
    exact Ends.set ((Files.ends_rename h (fun l hl => h.places hp (.inr hl))
      fun l hl => h.places hq (.inr hl)).ok hrun)
  · have hput {t l} (h : t₀.Within D (t₀.Places files) t) (hl : t₀.Places files l)
        (hw : t.Writable l) (c : Bytes) : t₀.Within D (t₀.Places files) (t.put l c) :=
      h.put hl hw c
    have hcopy := Files.ends_copy (p := p) hput h fun l hl => h.places hq (.inl hl)
    have hloose (t' : FileTree) (h' : t₀.Within D (t₀.Places files) t') :
        t₀.Loose D (t₀.Places files) p t' := h'.loose
    refine Ends.bind (ends_attempt (hcopy.mono hloose fun _ _ h' => h') _ _) fun _ t' h' => ?_
    have hremove := Files.ends_remove h' fun l hl => h'.places hp (.inr hl)
    exact ends_attempt (hremove.mono hloose fun _ => hloose) _ _

end Build

/-! ## Names of output files -/

namespace ClassName

variable {name : String}

theorem exists_cons (h : isValid name = true) :
    ∃ c cs, name.toList = c :: cs ∧ isStart c = true ∧ ∀ d ∈ cs, isPart d = true := by
  unfold isValid at h
  split at h
  · cases h
  · rename_i c cs hcs
    simp only [Bool.and_eq_true, List.all_eq_true] at h
    exact ⟨c, cs, hcs, h.1.1, h.1.2⟩

theorem slash_notMem (h : isValid name = true) : '/' ∉ name.toList := by
  obtain ⟨c, cs, hname, hc, hcs⟩ := exists_cons h
  rw [hname, List.mem_cons, not_or]
  refine ⟨?_, fun hslash => absurd (hcs _ hslash) (by decide)⟩
  rintro rfl
  exact absurd hc (by decide)

/-- A class name does not begin with a dot, so it stays a name with anything after it. -/
theorem isName_append (h : isValid name = true) (ending : String) :
    Path.IsName (name ++ ending) := by
  obtain ⟨c, cs, hname, hc, -⟩ := exists_cons h
  have hlist : (name ++ ending).toList = c :: (cs ++ ending.toList) := by
    rw [String.toList_append, hname, List.cons_append]
  have hdot : c ≠ '.' := by
    rintro rfl
    exact absurd hc (by decide)
  have hne (s : String) (hs : ∀ d ∈ s.toList.head?, d = '.') : name ++ ending ≠ s := by
    rintro rfl
    rw [hlist] at hs
    exact hdot (hs c rfl)
  refine ⟨?_, hne ".." (by simp)⟩
  simp [Path.isTrivial, hne "" (by simp), hne "." (by simp)]

/-- A file that is named after a class has that name at its place. -/
theorem head?_of_nameAt (h : isValid name = true) {ending : String}
    (hending : '/' ∉ ending.toList) {dir : Path} {t : FileTree} {l : Location}
    (hname : t.NameAt (dir.join (.ofText (name ++ ending))) l) :
    l.head? = some (name ++ ending) := by
  have hslash : '/' ∉ (name ++ ending).toList := by
    rw [String.toList_append, List.mem_append, not_or]
    exact ⟨slash_notMem h, hending⟩
  obtain ⟨front, hfront, -⟩ := Path.segments_join_name (p := dir) (Path.segments_ofText hslash)
  refine Path.head?_of_reaches hname ?_ (isName_append h ending)
  rw [hfront, List.getLast?_concat]

end ClassName

/-! ## The places of a build -/

/-- The class text that is written for a source file. -/
def Manifest.assemblyFile (m : Manifest) (source : Path) : Path :=
  (m.outputDirectory source).join (.ofText (source.stem ++ ".j"))

/-- The class file that the assembler is to write. -/
def Manifest.assembledFile (m : Manifest) (source : Path) : Path :=
  (m.outputDirectory source).join (.ofText (source.stem ++ ".class"))

/-- The class file next to the source file. -/
def Path.classFile (source : Path) : Path :=
  source.directory.join (.ofText (source.stem ++ ".class"))

/-- The directory for output and the directories above it. -/
def Manifest.outputDirectories (m : Manifest) (source : Path) : List Path :=
  (m.outputDirectory source).ancestors

theorem Path.of_className? {source : Path} {name : String} (h : source.className? = some name) :
    ClassName.isValid source.stem = true ∧ name = source.stem := by
  unfold className? at h
  split at h
  · rename_i hvalid
    exact ⟨hvalid, (Option.some.inj h).symm⟩
  · cases h

theorem of_classNameOf {source : Path} {name : String} (h : classNameOf source = .ok name) :
    source.className? = some name ∧ name = source.stem := by
  unfold classNameOf at h
  split at h
  · rename_i hname
    cases h
    exact ⟨hname, (Path.of_className? hname).2⟩
  · cases h

namespace Build

variable {t t' t₀ : FileTree} {m : Manifest} {source : Path} {run : Runner} {files : List Path}
  {l : Location} {n : Nat}

theorem ends_writeAssembly (t : FileTree) (hfile : m.assemblyFile source ∈ files) :
    Ends (t.Kept (t.Names (m.outputDirectories source)) (t.Places files))
      (fun assembly t' => assembly = m.assemblyFile source ∧
        t.Kept (t.Names (m.outputDirectories source)) (t.Places files) t')
      (writeAssembly m source) t := by
  have hstart {P : Location → Prop} : t.Kept (t.Names (m.outputDirectories source)) P t := .refl t
  unfold writeAssembly
  refine Ends.look_bind (run_ofExcept _ t) hstart fun name hname => ?_
  obtain ⟨-, rfl⟩ := of_classNameOf hname
  refine Ends.look_bind (run_attempt_ask .read source _ t) hstart fun text _ => ?_
  refine Ends.look_bind (run_ofExcept _ t) hstart fun classText _ => ?_
  have hmade (t' : FileTree) (h : t.Furnished (m.outputDirectories source) t') :
      t.Kept (t.Names (m.outputDirectories source)) (t.Places files) t' :=
    h.mono fun _ hl => hl.elim
  have hdirs := Files.ends_ensureDirectories (List.Subset.refl (m.outputDirectories source)) hstart
  refine Ends.bind (ends_attempt (hdirs.mono hmade fun _ => hmade) _ _) fun _ t' h => ?_
  have hwrite := Files.ends_write (p := m.assemblyFile source) (fun h hl hw c => h.put hl hw c) h
    (fun l hl => h.within.places hfile (.inl hl)) (Utf8.encode classText)
  exact Ends.bind (ends_attempt hwrite _ _) fun _ t' h => Ends.pure ⟨rfl, h⟩

/-- All that a build writes. -/
def outputs (m : Manifest) (source : Path) : List Path :=
  [m.assemblyFile source, m.assembledFile source, source.classFile]

/-- Called for a source file, the assembler changes at most the class file that it is to write, be
it at the place of that name or at the one it leads to. It may fail, and it may make a directory
there, but it makes no links, and no directory in the place of one. -/
def Confined (run : Runner) (m : Manifest) (source : Path) : Prop :=
  ∀ t : FileTree, t.Within (fun _ => False) (t.Found (m.assembledFile source))
    ((run (assemblerCommand m (m.outputDirectory source) (m.assemblyFile source))).run t).2

theorem ends_assemble {D : Location → Prop} (hrun : Confined run m source)
    (hfile : m.assembledFile source ∈ files) (h : t₀.Kept D (t₀.Places files) t) :
    Ends (t₀.Within D (t₀.Places files)) (fun _ => t₀.Within D (t₀.Places files))
      (assemble run m (m.outputDirectory source) (m.assemblyFile source)) t := by
  have hassembler : t₀.Within D (t₀.Places files)
      ((run (assemblerCommand m (m.outputDirectory source) (m.assemblyFile source))).run t).2 := by
    have hdone := hrun t
    refine ⟨h.changed.trans (hdone.changed.mono (fun _ hl => hl.elim) fun l hl => ?_),
      fun l target hl => ?_, fun l target hl => ?_⟩
    · exact h.within.places hfile hl
    · exact (h.links l target).mp (hdone.straight.old l target hl)
    · exact hdone.straight.blocked l target ((h.links l target).mpr hl)
  unfold assemble
  refine Ends.bind (J := fun _ => t₀.Within D (t₀.Places files))
    (ends_attempt ⟨fun hdone => ?_, fun hdone => ?_⟩ _ _) ?_
  · rwa [hdone] at hassembler
  · rwa [hdone] at hassembler
  · intro done t' h'
    split
    · exact Ends.throw h'
    · exact Ends.pure h'

/-- The last step of a build removes the class text, and nothing else unless a link was moved. -/
def Leaves (m : Manifest) (source : Path) (t t' : FileTree) : Prop :=
  ∃ t₁, t.Changed (t.Names (m.outputDirectories source)) (t.Places (outputs m source)) t₁ ∧
    (t' = t₁ ∨ t.IsLink (m.assembledFile source) ∧
      ∃ l, l.head? = some (source.stem ++ ".j") ∧ t' = t₁.erase l)

theorem ends_build (hrun : Confined run m source) (t : FileTree) :
    Ends (Leaves m source t) (fun _ => Leaves m source t) (build run m source) t := by
  have hassembly : m.assemblyFile source ∈ outputs m source := by simp [outputs]
  have hassembled : m.assembledFile source ∈ outputs m source := by simp [outputs]
  have hclass : source.classFile ∈ outputs m source := by simp [outputs]
  have hleaves {t' : FileTree}
      (h : t.Changed (t.Names (m.outputDirectories source)) (t.Places (outputs m source)) t') :
      Leaves m source t t' := ⟨t', h, .inl rfl⟩
  unfold build
  refine Ends.look_bind (run_ofExcept _ t) (hleaves (.refl t)) fun name hname => ?_
  obtain ⟨hclassName, rfl⟩ := of_classNameOf hname
  have hwrite := (ends_writeAssembly t hassembly).mono (fun _ h => hleaves h.changed) fun _ _ h => h
  refine Ends.bind hwrite fun assembly t₁ h₁ => ?_
  -- the command names the path that was returned, and the assembler is confined for that one
  obtain ⟨rfl, h₁⟩ := h₁
  have hassemble := (ends_assemble hrun hassembled h₁).mono (fun _ h => hleaves h.changed)
    fun _ _ h => h
  refine Ends.bind hassemble fun _ t₂ h₂ => Ends.get_bind ?_
  refine Ends.when_bind (Ends.throw (hleaves h₂.changed)) h₂ fun t₂ h₂ => ?_
  have hrelocate := (ends_relocate h₂ hassembled hclass).mono (fun _ h => hleaves h.changed)
    fun _ _ h => h
  refine Ends.when_bind hrelocate h₂.loose fun t₃ h₃ => ?_
  split
  · exact Ends.pure (hleaves h₃.changed)
  · rcases h₃.straight with hstraight | hlink
    · have h₄ : t.Within (t.Names (m.outputDirectories source)) (t.Places (outputs m source)) t₃ :=
        ⟨h₃.changed, hstraight⟩
      have hremove := (Files.ends_remove h₄ fun l hl => h₄.places hassembly (.inr hl)).mono
        (fun _ h => hleaves h.changed) fun _ _ h => hleaves h.changed
      exact Ends.bind (ends_attempt hremove _ _) fun _ _ h => Ends.pure h
    · -- the way to the class text may lead through the link that was moved
      have hremove := Files.ends_remove_somewhere t₃ (m.assemblyFile source)
      refine Ends.bind (ends_attempt (hremove.mono ?_ fun _ _ h => h) _ _) fun _ t₄ h₄ => ?_
      · rintro t₄ rfl
        exact hleaves h₃.changed
      · obtain ⟨l, hl, rfl⟩ := h₄
        have hhead := ClassName.head?_of_nameAt (Path.of_className? hclassName).1 (by decide) hl
        exact Ends.pure ⟨t₃, h₃.changed, .inr ⟨hlink, l, hhead, rfl⟩⟩

/-! ### Sources that do not compile -/

/-- A source file that goes through: its stem is a class name, and it is a text that compiles. -/
def Compilable (source : Path) (t : FileTree) : Prop :=
  ∃ name text classText, source.className? = some name ∧ t.readText source = .ok text ∧
    compile text name source.fileName? = .ok classText

/-- Any other source file is refused before anything is done. -/
theorem run_writeAssembly_of_not_compilable (h : ¬ Compilable source t) :
    ∃ e, (writeAssembly m source).run t = (.error e, t) := by
  unfold writeAssembly
  have hread := run_attempt_ask .read source (·.readText source) t
  cases hname : classNameOf source with
  | error e => exact ⟨e, run_bind_error (run_ofExcept _ t) _⟩
  | ok name =>
      rw [run_bind_ok (run_ofExcept _ t)]
      cases htext : t.readText source with
      | error e =>
          rw [htext] at hread
          exact ⟨_, run_bind_error hread _⟩
      | ok text =>
          rw [htext] at hread
          rw [run_bind_ok hread]
          cases hcompile : compile text name source.fileName? with
          | error e => exact ⟨_, run_bind_error (run_ofExcept _ t) _⟩
          | ok classText =>
              exact absurd ⟨name, text, classText, (of_classNameOf hname).1, htext, hcompile⟩ h

theorem run_build_of_not_compilable (h : ¬ Compilable source t) :
    ∃ e, (build run m source).run t = (.error e, t) := by
  unfold build
  cases hname : classNameOf source with
  | error e => exact ⟨e, run_bind_error (run_ofExcept _ t) _⟩
  | ok name =>
      obtain ⟨e, hwrite⟩ := run_writeAssembly_of_not_compilable (m := m) h
      rw [run_bind_ok (run_ofExcept _ t)]
      exact ⟨e, run_bind_error hwrite _⟩

/-! ### The source is spared -/

theorem head?_output (hvalid : ClassName.isValid source.stem = true) {q : Path}
    (hq : q ∈ outputs m source) (hl : t.NameAt q l) :
    l.head? = some (source.stem ++ ".j") ∨ l.head? = some (source.stem ++ ".class") := by
  rcases List.mem_cons.mp hq with rfl | hq
  · exact .inl (ClassName.head?_of_nameAt hvalid (by decide) hl)
  · rcases List.mem_cons.mp hq with rfl | hq
    · exact .inr (ClassName.head?_of_nameAt hvalid (by decide) hl)
    · obtain rfl := List.mem_singleton.mp hq
      exact .inr (ClassName.head?_of_nameAt hvalid (by decide) hl)

/-- The file at a place is still there, with its content. -/
def Intact (t t' : FileTree) (l : Location) (n : Nat) : Prop :=
  t'.get? l = some (.file n) ∧ t'.content n = t.content n

/-- What is left alone between two trees by a build of a source file that can write `files`. -/
structure Spares (files : List Path) (m : Manifest) (source : Path) (t t' : FileTree) : Prop where
  /-- Names change only where `files` lead, and contents only of new files and of those that had
  such a name. Where nothing was, directories are made at the places of the output directory and
  of the paths above it. -/
  elsewhere : t.Changed (t.Names (m.outputDirectories source)) (t.Places files) t'
  /-- If the output directory is spelled directly, these are the directories around it. -/
  around : (m.outputDirectory source).Direct → t.NoLinks →
    t.Changed (fun l => l <:+ (m.outputDirectory source).locate t.current ∨ l <:+ t.current)
      (t.Places files) t'
  /-- The source file stays as it is unless it has a name where one of `files` leads. -/
  content : ∀ l n, t.resolve source = .ok l → t.get? l = some (.file n) →
    (∀ l', t.Places files l' → t.get? l' ≠ some (.file n)) → Intact t t' l n
  /-- In particular it stays as it is if it has one name only, which is not that of an output, and
  if no output is a link. -/
  named : ∀ l n, t.resolve source = .ok l → t.get? l = some (.file n) →
    (∀ l', t.get? l' = some (.file n) → l' = l) → (∀ q ∈ files, ¬ t.IsLink q) →
    l.head? ≠ some (source.stem ++ ".j") → l.head? ≠ some (source.stem ++ ".class") →
    Intact t t' l n
  /-- Nothing at all changes if the source file does not go through. -/
  refused : ¬ Compilable source t → t' = t

theorem intact_of_changed {D P : Location → Prop} (h : t.Changed D P t')
    (hfile : t.get? l = some (.file n)) (hother : ∀ l', P l' → t.get? l' ≠ some (.file n)) :
    Intact t t' l n := by
  constructor
  · rcases h.name l with hsame | ⟨hl, -⟩ | ⟨-, hnone, -⟩
    · exact hsame.trans hfile
    · exact absurd hfile (hother l hl)
    · -- a directory is made only where nothing is
      rw [hfile] at hnone
      cases hnone
  · rcases h.content n with hsame | hnew | ⟨l', hl', hfile'⟩
    · exact hsame
    · exact absurd hfile (hnew l)
    · exact absurd hfile' (hother l' hl')

theorem spares_of_changed (hfiles : files ⊆ outputs m source)
    (h : t.Changed (t.Names (m.outputDirectories source)) (t.Places files) t')
    (hrefused : ¬ Compilable source t → t' = t) : Spares files m source t t' := by
  refine ⟨h, fun hdirect hlinks => ?_, fun l n _ hfile hother => intact_of_changed h hfile hother,
    fun l n _ hfile honly hlinks hj hclass => ?_, hrefused⟩
  · refine h.mono (fun l hl => ?_) fun _ hl => hl
    obtain ⟨q, hq, hname⟩ := hl
    rw [← FileTree.locate_of_nameAt hlinks hname]
    exact Path.locate_suffix_of_mem_ancestors hdirect hq t.current
  · by_cases hcompiles : Compilable source t
    · obtain ⟨_, _, _, hname, -, -⟩ := hcompiles
      have hvalid : ClassName.isValid source.stem = true := (Path.of_className? hname).1
      refine intact_of_changed h hfile fun l' hl' hfile' => ?_
      obtain rfl := honly l' hfile'
      obtain ⟨q, hq, hplace⟩ := hl'
      have hat : t.NameAt q l' :=
        hplace.elim id fun hleads => FileTree.nameAt_of_leadsTo hleads (hlinks q hq)
      exact (head?_output hvalid (hfiles hq) hat).elim hj hclass
    · rw [hrefused hcompiles]
      exact ⟨hfile, rfl⟩

/-- An assembler that writes an empty class file. -/
def blankAssembler (m : Manifest) (source : Path) : Runner := fun _ => do
  Files.write (m.assembledFile source) []
  return ⟨.code 0, [], []⟩

theorem confined_blankAssembler (m : Manifest) (source : Path) :
    Confined (blankAssembler m source) m source := by
  intro t
  have hwrite := Files.ends_write (p := m.assembledFile source)
    (fun h hl hw c => h.put hl hw c) (FileTree.Within.refl (D := fun _ => False) t)
    (fun l hl => show t.Found (m.assembledFile source) l from .inl hl) []
  exact Ends.final (Ends.bind hwrite fun _ _ h => Ends.pure h)

/-- A tree with a source file in the current directory. -/
def workshop (name : String) : FileTree :=
  (FileTree.base ["w"]).put [name, "w"] (Utf8.encode "print 1;")

/-- The same on a disk that does not allow a file to be moved. -/
def dividedWorkshop (name : String) : FileTree :=
  { workshop name with
    refusal := fun r => match r with
      | .move _ _ => some .crossesVolumes
      | _ => none }

/-- Settings with a directory for output that has to be made, with the one around it. -/
def sideways : Manifest :=
  { Manifest.default with outDir := some (.ofText "../out/deep"), keepAssembly := false }

/-- Settings with a directory for output that is spelled through another one. -/
def roundabout : Manifest := { Manifest.default with outDir := some (.ofText "a/../b") }

/-- Settings with a directory for output that has the place of the class file. -/
def crossed : Manifest :=
  { Manifest.default with outDir := some (.ofText "P.class"), keepAssembly := false }

/-- A source file, and links from its class file to a directory with a link in it. -/
def knotted : FileTree :=
  ((((((workshop "P.dam").insert ["P.class", "w"] (.link (.ofText "d"))).insert ["d", "w"]
    .directory).insert ["P.class", "d", "w"] (.link (.ofText "x"))).put ["x", "d", "w"] []).insert
      ["x", "w"] .directory).put ["P.j", "x", "w"] []

end Build

end Dam
