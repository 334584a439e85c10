/-
What a job does to the file that it reads.  A job changes nothing but what stands in the place of its archive and, as
its last action, in the place of its report.  So a job that fails leaves its input as it was, unless its archive is to
stand in the place of the input, or it has begun to write its report there.  In the first case the input is removed
before it is read, in the second one it is emptied before the report is written.
-/
import Unscramble.Proofs.ReportBytes
import Unscramble.Proofs.Results
import Unscramble.Job

namespace Unscramble

namespace FileSystem

variable {files files' files'' : FileSystem} {text : String} {path place : Path} {content data : Bytes}

theorem isDirectory_eq_false_iff : files.isDirectory path = false ↔ files.node? path ≠ some .directory := by
  simp [isDirectory]

/-- A place where no directory stands is none of those where one always stands. -/
theorem node?_eq_lookup (h : files.isDirectory path = false) (files' : FileSystem) :
    files'.node? path = files'.nodes.lookup path := by
  refine if_neg fun halways => ?_
  rw [isDirectory_eq_false_iff, node?, if_pos halways] at h
  exact h rfl

theorem node?_set_self (h : files.isDirectory path = false) (node : Node) :
    (files.set path node).node? path = some node := by
  rw [node?_eq_lookup h, set, List.lookup_cons_self]

theorem node?_erase_self (h : files.isDirectory path = false) : (files.erase path).node? path = none := by
  rw [node?_eq_lookup h, List.lookup_eq_none_iff]
  intro entry hentry
  have hne := (List.mem_filter.1 hentry).2
  simpa [bne, BEq.comm] using hne

theorem create?_eq_some : files.create? text content = some files' ↔
    ∃ path, files.resolve? text = some path ∧ files.isDirectory path = false ∧
      files.set path (.file content) = files' := by
  unfold create?
  cases files.resolve? text with
  | none => simp
  | some path => cases files.isDirectory path <;> simp

theorem remove?_eq_some : files.remove? text = some files' ↔
    ∃ path content, files.resolve? text = some path ∧ files.node? path = some (.file content) ∧
      files.erase path = files' := by
  unfold remove?
  cases files.resolve? text with
  | none => simp
  | some path =>
      cases hnode : files.node? path with
      | none => simp [hnode]
      | some node => cases node <;> simp [hnode]

theorem content?_eq_some : files.content? text = some content ↔
    ∃ path, files.resolve? text = some path ∧ files.node? path = some (.file content) := by
  unfold content? lookup
  cases files.resolve? text with
  | none => simp
  | some path =>
      cases hnode : files.node? path with
      | none => simp [hnode]
      | some node => cases node <;> simp [hnode]

/-- Directories are neither made nor removed between the two. -/
def SameDirectories (files files' : FileSystem) : Prop :=
  ∀ path, files'.isDirectory path = files.isDirectory path

theorem SameDirectories.refl (files : FileSystem) : SameDirectories files files :=
  fun _ => rfl

theorem SameDirectories.trans (h : SameDirectories files files') (h' : SameDirectories files' files'') :
    SameDirectories files files'' :=
  fun path => (h' path).trans (h path)

/-- Every written path leads to the same place. -/
theorem SameDirectories.resolve? (h : SameDirectories files files') (text : String) :
    files'.resolve? text = files.resolve? text := by
  have hstep : FileSystem.resolve?.step files' = FileSystem.resolve?.step files := by
    funext here part
    simp only [resolve?.step, h here]
  rw [FileSystem.resolve?, FileSystem.resolve?, hstep]

theorem sameDirectories_set (h : files.isDirectory path = false) :
    SameDirectories files (files.set path (.file content)) := by
  intro other
  by_cases hother : other = path
  · subst hother
    rw [h, isDirectory, node?_set_self h]
    rfl
  · rw [isDirectory, node?_set_of_ne files _ hother, isDirectory]

theorem sameDirectories_erase (h : files.isDirectory path = false) :
    SameDirectories files (files.erase path) := by
  intro other
  by_cases hother : other = path
  · subst hother
    rw [h, isDirectory, node?_erase_self h]
    rfl
  · rw [isDirectory, node?_erase_of_ne files hother, isDirectory]

/-- A file that has been created can be created again, and has its last contents then. -/
theorem create?_again (h : files.create? text content = some files') (data : Bytes) :
    ∃ files'', files.create? text data = some files'' ∧ files'.create? text data = some files'' := by
  obtain ⟨path, hpath, hdirectory, rfl⟩ := create?_eq_some.1 h
  have hsame : SameDirectories files (files.set path (.file content)) := sameDirectories_set hdirectory
  refine ⟨files.set path (.file data), create?_eq_some.2 ⟨path, hpath, hdirectory, rfl⟩, ?_⟩
  refine create?_eq_some.2 ⟨path, (hsame.resolve? text).trans hpath, (hsame path).trans hdirectory, ?_⟩
  simp [set]

theorem content?_of_create? (h : files.create? text content = some files') {other : String}
    (hsame : files.resolve? other = files.resolve? text) : files'.content? other = some content := by
  obtain ⟨path, hpath, hdirectory, rfl⟩ := create?_eq_some.1 h
  refine content?_eq_some.2 ⟨path, ?_, node?_set_self hdirectory _⟩
  rw [(sameDirectories_set hdirectory).resolve?, hsame, hpath]

/-- The second file system has the directories of the first one, and the file with these contents stands at the
place. -/
structure Holds (files : FileSystem) (place : Path) (content : Bytes) (files' : FileSystem) : Prop where
  directories : SameDirectories files files'
  file : files'.node? place = some (.file content)

namespace Holds

theorem content? (h : Holds files place content files') (hplace : files.resolve? text = some place) :
    files'.content? text = some content :=
  content?_eq_some.2 ⟨place, by rw [h.directories.resolve?, hplace], h.file⟩

/-- A file that is created at another place changes nothing at this one. -/
theorem create? (h : Holds files place content files') (hother : files.resolve? text ≠ some place)
    (hcreate : files'.create? text data = some files'') : Holds files place content files'' := by
  obtain ⟨path, hpath, hdirectory, rfl⟩ := create?_eq_some.1 hcreate
  have hne : place ≠ path := by
    rintro rfl
    exact hother (by rw [← h.directories.resolve?, hpath])
  exact ⟨h.directories.trans (sameDirectories_set hdirectory), by rw [node?_set_of_ne _ _ hne, h.file]⟩

/-- A file that is removed from another place changes nothing at this one. -/
theorem remove? (h : Holds files place content files') (hother : files.resolve? text ≠ some place)
    (hremove : files'.remove? text = some files'') : Holds files place content files'' := by
  obtain ⟨path, old, hpath, hold, rfl⟩ := remove?_eq_some.1 hremove
  have hne : place ≠ path := by
    rintro rfl
    exact hother (by rw [← h.directories.resolve?, hpath])
  have hdirectory : files'.isDirectory path = false := by
    rw [isDirectory_eq_false_iff, hold]
    nofun
  exact ⟨h.directories.trans (sameDirectories_erase hdirectory), by rw [node?_erase_of_ne _ hne, h.file]⟩

end Holds

end FileSystem

namespace JobM

variable {ε α β : Type} {P : FileSystem → Prop} {R : α → FileSystem → Prop} {T : β → FileSystem → Prop}
  {Q : JobFault → FileSystem → Prop} {act : JobM α} {next : α → JobM β} {fault : JobFault}
  {storage : Storage}

/-- On a storage and files of which `P` holds the computation gives a result and files of which `R` holds, or it fails
and leaves files of which `Q` holds.  The storage stays the same. -/
structure Meets (storage : Storage) (P : FileSystem → Prop) (act : JobM α) (R : α → FileSystem → Prop)
    (Q : JobFault → FileSystem → Prop) : Prop where
  result : ∀ {s a s'}, s.storage = storage → P s.files → act s = .ok a s' → s'.storage = storage ∧ R a s'.files
  failure : ∀ {s fault s'}, s.storage = storage → P s.files → act s = .error fault s' → Q fault s'.files

theorem Meets.bind (h : Meets storage P act R Q) (hnext : ∀ a, Meets storage (R a) (next a) T Q) :
    Meets storage P (act >>= next) T Q where
  result {s b s'} hstorage hs heq := by
    change EStateM.bind act next s = _ at heq
    unfold EStateM.bind at heq
    split at heq
    · next a middle hact =>
        obtain ⟨hmiddle, ha⟩ := h.result hstorage hs hact
        exact (hnext a).result hmiddle ha heq
    · cases heq
  failure {s fault s'} hstorage hs heq := by
    change EStateM.bind act next s = _ at heq
    unfold EStateM.bind at heq
    split at heq
    · next a middle hact =>
        obtain ⟨hmiddle, ha⟩ := h.result hstorage hs hact
        exact (hnext a).failure hmiddle ha heq
    · next reason middle hact =>
        cases heq
        exact h.failure hstorage hs hact

theorem Meets.imp (h : Meets storage P act R Q) {R' : α → FileSystem → Prop}
    (himp : ∀ a files, R a files → R' a files) : Meets storage P act R' Q where
  result hstorage hs heq := (h.result hstorage hs heq).imp_right (himp _ _)
  failure hstorage hs heq := h.failure hstorage hs heq

/-- What is known of the files apart from what they are. -/
theorem Meets.of_and {p : Prop} (h : p → Meets storage P act R Q) :
    Meets storage (fun files => P files ∧ p) act R Q where
  result hstorage hs heq := (h hs.2).result hstorage hs.1 heq
  failure hstorage hs heq := (h hs.2).failure hstorage hs.1 heq

theorem meets_pure {a : α} (h : ∀ files, P files → R a files) : Meets storage P (pure a) R Q where
  result hstorage hs heq := by
    cases heq
    exact ⟨hstorage, h _ hs⟩
  failure hstorage hs heq := by cases heq

theorem meets_throw (h : ∀ files, P files → Q fault files) : Meets storage P (throw fault) R Q where
  result hstorage hs heq := by cases heq
  failure hstorage hs heq := by
    cases heq
    exact h _ hs

/-- Nothing is done after a failure. -/
theorem meets_throw_bind (h : ∀ files, P files → Q fault files) : Meets storage P (throw fault >>= next) T Q where
  result hstorage hs heq := by cases heq
  failure hstorage hs heq := by
    cases heq
    exact h _ hs

theorem meets_get : Meets storage P get (fun s files => P files ∧ s.storage = storage) Q where
  result hstorage hs heq := by
    cases heq
    exact ⟨hstorage, hs, hstorage⟩
  failure hstorage hs heq := by cases heq

/-- What is known of the files holds of those that the state tells of. -/
theorem meets_get_files : Meets storage P get (fun s files => s.files = files ∧ P files) Q where
  result hstorage hs heq := by
    cases heq
    exact ⟨hstorage, rfl, hs⟩
  failure hstorage hs heq := by cases heq

theorem meets_info (text : String) : Meets storage P (info text) (fun _ => P) Q where
  result hstorage hs heq := by
    cases heq
    exact ⟨hstorage, hs⟩
  failure hstorage hs heq := by cases heq

theorem meets_debug (text : String) : Meets storage P (debug text) (fun _ => P) Q where
  result hstorage hs heq := by
    cases heq
    exact ⟨hstorage, hs⟩
  failure hstorage hs heq := by cases heq

theorem meets_logged {wrap : ε → JobFault} (act : Logged ε α) (h : ∀ e files, P files → Q (wrap e) files) :
    Meets storage P (logged wrap act) (fun a files => P files ∧ ∃ log log', act log = .ok a log') Q where
  result {s a s'} hstorage hs heq := by
    unfold logged at heq
    split at heq
    · next a log hact =>
        cases heq
        exact ⟨hstorage, hs, s.log, log, hact⟩
    · cases heq
  failure {s fault s'} hstorage hs heq := by
    unfold logged at heq
    split at heq
    · cases heq
    · cases heq
      exact h _ _ hs

theorem meets_change {files? : Option FileSystem} {T : Unit → FileSystem → Prop}
    (h : ∀ files files', P files → files? = some files' → T () files')
    (hnone : ∀ files, P files → files? = none → Q fault files) : Meets storage P (change files? fault) T Q where
  result {s a s'} hstorage hs heq := by
    cases hchange : files? with
    | none =>
        rw [hchange] at heq
        cases heq
    | some files' =>
        rw [hchange] at heq
        cases heq
        exact ⟨hstorage, h s.files files' hs hchange⟩
  failure {s reason s'} hstorage hs heq := by
    cases hchange : files? with
    | none =>
        rw [hchange] at heq
        cases heq
        exact hnone s.files hs hchange
    | some files' =>
        rw [hchange] at heq
        cases heq

end JobM

/-- Whether a job that fails for this reason has begun to write its report. -/
def JobFault.leavesReport : JobFault → Bool
  | cannotSerialize | cannotWriteReport => true
  | _ => false

theorem ReportPart.leavesReport_fault (part : ReportPart) : part.fault.leavesReport = true := by
  cases part <;> rfl

/-- What cannot be found cannot be read. -/
theorem Source.exists_fault {files : FileSystem} {path : String} (h : files.lookup path = none) :
    ∃ reason, Source.read files path = .error reason := by
  have hcontent : files.content? path = none := by rw [FileSystem.content?, h]
  unfold Source.read
  rw [h, hcontent]
  split
  · exact ⟨_, rfl⟩
  · split
    · exact ⟨_, rfl⟩
    · exact ⟨_, rfl⟩

theorem FileSystem.readProgram_eq_ok {files : FileSystem} {path : String} {log log' : Log} {pool : ClassPool}
    (h : files.readProgram path log = .ok pool log') : Source.read files path = .ok pool := by
  unfold readProgram at h
  cases hread : Source.read files path with
  | ok found =>
      rw [hread] at h
      cases h
      rfl
  | error reason =>
      rw [hread] at h
      cases h

theorem JobM.run_readProgram {files : FileSystem} {path : String} {reason : SourceFault}
    (h : Source.read files path = .error reason) (s : JobState) :
    (JobM.logged .source (files.readProgram path)).run s = .error (.source reason) s := by
  unfold FileSystem.readProgram
  rw [h]
  rfl

namespace Job

variable {job : Job} {files files' : FileSystem} {place : Path} {content : Bytes} {fault : JobFault}

open FileSystem JobM

theorem leavesReport_entry {refused : Bool} {c : ClassDecl} (h : entry refused c = .error fault) :
    fault.leavesReport = false := by
  unfold entry at h
  dsimp only at h
  split at h
  · split at h
    · cases h
      rfl
    · cases h
  · cases h
    rfl

theorem leavesReport_entries {storage : Storage} {pool : ClassPool} (h : job.entries storage pool = .error fault) :
    fault.leavesReport = false := by
  unfold entries at h
  rcases bind_eq_error.1 h with hentries | ⟨found, -, h⟩
  · obtain ⟨⟨c, index⟩, -, hentry⟩ := mapM_eq_error hentries
    exact leavesReport_entry hentry
  · dsimp only at h
    split at h
    · cases h
      rfl
    · cases h

/-- Before a job, or at a point of it, its input can be read. -/
def Readable (job : Job) (files : FileSystem) (place : Path) (content : Bytes) : Prop :=
  ∃ files' pool, Holds files place content files' ∧ Source.read files' job.input = .ok pool

/-- What a job that fails leaves of the file with these contents at the place.  A job that has not begun to write its
report leaves the file.  One that has begun to do so has read its input by then, and leaves a beginning of the report
at the path of the report. -/
inductive Leaves (job : Job) (files : FileSystem) (place : Path) (content : Bytes) (fault : JobFault)
    (files' : FileSystem) : Prop
  | untouched (hfault : fault.leavesReport = false) (hholds : Holds files place content files')
  | begun (hfault : fault.leavesReport = true) (hread : Readable job files place content) {path : String}
      (hpath : job.report = some path) {earlier : FileSystem} (hearlier : Holds files place content earlier)
      (report : RunReport) (count : Nat) (hcreate : earlier.create? path (report.bytes.take count) = some files')

/-- A change of what stands in the place of the archive. -/
theorem meets_changeOutput {s : JobState} {f : FileSystem → String → Option FileSystem}
    (hchange : ∀ {files' files''}, Holds files place content files' → f files' job.output = some files'' →
      Holds files place content files'')
    (hfault : fault.leavesReport = false) :
    Meets storage (fun files' => s.files = files' ∧ Holds files place content files')
      (change (f s.files job.output) fault) (fun _ => Holds files place content)
      (Leaves job files place content) := by
  refine meets_change ?_ ?_
  · rintro _ files' ⟨rfl, h⟩ hsome
    exact hchange h hsome
  · rintro _ ⟨rfl, h⟩ -
    exact .untouched hfault h

section Elsewhere

variable (hother : files.resolve? job.output ≠ some place)

include hother

theorem meets_clearOutput :
    Meets storage (Holds files place content) job.clearOutput (fun _ => Holds files place content)
      (Leaves job files place content) := by
  unfold clearOutput
  refine meets_get_files.bind fun s => ?_
  dsimp only
  split
  · exact meets_changeOutput (fun h => h.remove? hother) rfl
  · exact meets_pure fun _ h => h.2

theorem meets_save (pool : ClassPool) :
    Meets storage (Holds files place content) (job.save pool) (fun _ => Holds files place content)
      (Leaves job files place content) := by
  have hcreate : ∀ (s : JobState) data,
      Meets storage (fun files' => s.files = files' ∧ Holds files place content files')
        (change (s.files.create? job.output data) (.cannotCreate job.output)) (fun _ => Holds files place content)
        (Leaves job files place content) :=
    fun s data => meets_changeOutput (f := (·.create? · data)) (fun h => h.create? hother) rfl
  unfold save
  refine meets_get_files.bind fun s => (hcreate s []).bind fun _ => meets_get.bind fun s => .of_and fun _ => ?_
  split
  · exact meets_get_files.bind fun s => (hcreate s _).bind fun _ => meets_debug _
  · next fault hentries =>
      have hfault := leavesReport_entries hentries
      refine meets_get_files.bind fun s => Meets.bind ?_ fun _ => meets_throw fun _ h => .untouched hfault h
      exact meets_changeOutput (fun h => h.remove? hother) hfault

end Elsewhere

/-- The file at the path of the report has been emptied. -/
def Emptied (files : FileSystem) (place : Path) (content : Bytes) (path : String) (files' : FileSystem) : Prop :=
  ∃ earlier, Holds files place content earlier ∧ earlier.create? path [] = some files'

/-- The report can be opened, or the job fails before it has changed anything. -/
theorem meets_open (s : JobState) (path : String) :
    Meets storage (fun files' => s.files = files' ∧ Holds files place content files')
      (change (s.files.create? path []) (.cannotReport path)) (fun _ => Emptied files place content path)
      (Leaves job files place content) := by
  refine meets_change ?_ ?_
  · rintro _ files' ⟨rfl, h⟩ hcreate
    exact ⟨s.files, h, hcreate⟩
  · rintro _ ⟨rfl, h⟩ -
    exact .untouched rfl h

/-- A report is written to its end, unless the storage refuses a part of it. -/
theorem meets_writeReport (hread : Readable job files place content) (count : Nat) (passes : List StepReport) :
    Meets storage (Holds files place content) (job.writeReport count passes)
      (fun _ _ => job.report = none ∨ storage.refusedPart = none) (Leaves job files place content) := by
  unfold writeReport
  split
  case h_2 hnone => exact meets_pure fun _ _ => .inl hnone
  next path hpath =>
    dsimp only
    refine meets_get_files.bind fun s => (meets_open s path).bind fun _ => meets_get.bind fun s => .of_and fun hs => ?_
    split
    · next part written _ =>
        refine meets_get_files.bind fun s => Meets.bind (meets_change ?_ ?_) fun _ => meets_throw fun _ h => h
        · rintro _ files' ⟨rfl, earlier, hearlier, hempty⟩ hcreate
          obtain ⟨files'', hcreate', hagain⟩ := create?_again hempty _
          obtain rfl := Option.some.inj (hagain.symm.trans hcreate)
          exact .begun part.leavesReport_fault hread hpath hearlier _ written hcreate'
        · rintro _ ⟨rfl, earlier, hearlier, hempty⟩ hnone
          obtain ⟨files'', -, hagain⟩ := create?_again hempty _
          cases hnone.symm.trans hagain
    · next hrefused =>
        refine meets_get_files.bind fun s => meets_change (fun _ _ _ _ => .inr (hs ▸ hrefused)) ?_
        rintro _ ⟨rfl, earlier, hearlier, hempty⟩ hnone
        obtain ⟨files'', -, hagain⟩ := create?_again hempty _
        cases hnone.symm.trans hagain

theorem meets_readProgram (s : JobState) :
    Meets storage (fun files' => s.files = files' ∧ Holds files place content files')
      (logged .source (s.files.readProgram job.input))
      (fun _ files' => Holds files place content files' ∧ Readable job files place content)
      (Leaves job files place content) := by
  refine (meets_logged _ fun _ _ h => .untouched rfl h.2).imp ?_
  rintro pool _ ⟨⟨rfl, h⟩, log, log', hread⟩
  exact ⟨h, s.files, pool, h, readProgram_eq_ok hread⟩

/-- Planning a job and carrying out the plan do not touch the files. -/
theorem meets_work {ε α : Type} {wrap : ε → JobFault} (hwrap : ∀ e, (wrap e).leavesReport = false) (act : Logged ε α) :
    Meets storage (Holds files place content) (logged wrap act) (fun _ => Holds files place content)
      (Leaves job files place content) :=
  (meets_logged act fun e _ h => .untouched (hwrap e) h).imp fun _ _ h => h.1

/-- A job that does not fail has written its report to the end, if one was wanted. -/
theorem meets_run (hother : files.resolve? job.output ≠ some place) :
    Meets storage (Holds files place content) job.run (fun _ _ => job.report = none ∨ storage.refusedPart = none)
      (Leaves job files place content) := by
  unfold run
  refine meets_get.bind fun s => .of_and fun _ => ?_
  dsimp only
  split
  · exact meets_throw_bind fun _ h => .untouched rfl h
  · exact meets_throw_bind fun _ h => .untouched rfl h
  · refine (meets_clearOutput hother).bind fun _ => (meets_info _).bind fun _ => ?_
    refine meets_get_files.bind fun s => (meets_readProgram s).bind fun pool => .of_and fun hread => ?_
    refine (meets_info _).bind fun _ => (meets_work (fun _ => rfl) _).bind fun steps => ?_
    refine (meets_info _).bind fun _ => (meets_work (fun _ => rfl) _).bind fun (cleaned, passes) => ?_
    refine (meets_save hother _).bind fun _ => (meets_info _).bind fun _ => ?_
    exact meets_writeReport hread _ _

/-- The file at the place of the input is still there exactly if no report has been begun in its place. -/
theorem Leaves.content?_iff (h : Leaves job files place content fault files')
    (hplace : files.resolve? job.input = some place) : files'.content? job.input = some content ↔
      (fault.leavesReport = true → ∀ path, job.report = some path → files.resolve? path ≠ some place) := by
  cases h with
  | untouched hfault hholds =>
      refine iff_of_true (hholds.content? hplace) fun hreport => ?_
      rw [hfault] at hreport
      cases hreport
  | begun hfault hread hreport hearlier report count hcreate =>
      rename_i path earlier
      by_cases hinput : files.resolve? path = some place
      · refine iff_of_false ?_ fun hother => hother hfault path hreport hinput
        obtain ⟨readable, pool, hholds, hpool⟩ := hread
        have hne := Source.ne_take_bytes hpool (hholds.content? hplace) report count
        have hsame : earlier.resolve? job.input = earlier.resolve? path := by
          rw [hearlier.directories.resolve?, hearlier.directories.resolve?, hplace, hinput]
        rw [content?_of_create? hcreate hsame]
        exact fun heq => hne (Option.some.inj heq).symm
      · refine iff_of_true ((hearlier.create? hinput hcreate).content? hplace) fun _ other hother => ?_
        obtain rfl := Option.some.inj (hreport.symm.trans hother)
        exact hinput

/-- A job whose archive is to stand in the place of its input removes the input and then cannot read it. -/
theorem run_inPlace (storage : Storage) (hinput : files.content? job.input = some content)
    (hplace : files.resolve? job.output = files.resolve? job.input) :
    ∃ fault, (job.runOn files storage).result = .error fault ∧
      (job.runOn files storage).files.content? job.input = none := by
  obtain ⟨place, hpath, hfile⟩ := content?_eq_some.1 hinput
  have hlookup : files.lookup job.input = some (.file content) := by
    rw [lookup, hpath, Option.bind_some, hfile]
  have hremove : files.remove? job.output = some (files.erase place) :=
    remove?_eq_some.2 ⟨place, content, hplace.trans hpath, hfile, rfl⟩
  have hdirectory : files.isDirectory place = false := by
    rw [isDirectory_eq_false_iff, hfile]
    nofun
  have hgone : (files.erase place).lookup job.input = none := by
    rw [lookup, (sameDirectories_erase hdirectory).resolve?, hpath, Option.bind_some, node?_erase_self hdirectory]
  obtain ⟨reason, hreason⟩ := Source.exists_fault hgone
  have hcontent : (files.erase place).content? job.input = none := by rw [FileSystem.content?, hgone]
  have hplaced : files.lookup job.output = some (.file content) := by
    rw [lookup, hplace, ← lookup, hlookup]
  have hrun : ∃ log, job.run.run { files, storage } = .error (.source reason) ⟨files.erase place, storage, log⟩ := by
    simp [run, clearOutput, hlookup, hplaced, hremove, change, info, run_readProgram hreason]
  obtain ⟨log, hrun⟩ := hrun
  rw [runOn, hrun]
  exact ⟨_, rfl, hcontent⟩

/-- The input of a job that fails is as it was before exactly if the archive was to stand elsewhere, and so was the
report, or the job has not come to write it.  This is so wherever the storage fails. -/
theorem failed_keeps_input_iff (storage : Storage) (hinput : files.content? job.input = some content)
    (hfails : (job.runOn files storage).result = .error fault) :
    (job.runOn files storage).files.content? job.input = some content ↔
      files.resolve? job.output ≠ files.resolve? job.input ∧
        (fault.leavesReport = true → ∀ path, job.report = some path →
          files.resolve? path ≠ files.resolve? job.input) := by
  obtain ⟨place, hpath, hfile⟩ := content?_eq_some.1 hinput
  by_cases hplace : files.resolve? job.output = files.resolve? job.input
  · obtain ⟨_, -, hgone⟩ := run_inPlace storage hinput hplace
    rw [hgone]
    exact iff_of_false (Option.some_ne_none content).symm fun h => h.1 hplace
  · rw [hpath] at hplace ⊢
    unfold runOn at hfails ⊢
    cases hrun : job.run.run { files, storage } with
    | ok a s =>
        rw [hrun] at hfails
        cases hfails
    | error reason s =>
        rw [hrun] at hfails
        cases hfails
        have hholds : Holds files place content files := ⟨.refl files, hfile⟩
        have hleaves := (meets_run hplace).failure rfl hholds hrun
        exact (hleaves.content?_iff hpath).trans (and_iff_right hplace).symm

/-- A job fails if the storage refuses a part of its report. -/
theorem fails_of_refusedPart {storage : Storage} (hinput : files.content? job.input = some content)
    (hreport : job.report ≠ none) (hrefused : storage.refusedPart ≠ none) :
    ∃ fault, (job.runOn files storage).result = .error fault := by
  by_cases hplace : files.resolve? job.output = files.resolve? job.input
  · obtain ⟨fault, hfails, -⟩ := run_inPlace storage hinput hplace
    exact ⟨fault, hfails⟩
  · obtain ⟨place, hpath, hfile⟩ := content?_eq_some.1 hinput
    rw [hpath] at hplace
    unfold runOn
    cases hrun : job.run.run { files, storage } with
    | ok a s =>
        have hholds : Holds files place content files := ⟨.refl files, hfile⟩
        obtain ⟨-, hnone⟩ := (meets_run hplace).result rfl hholds hrun
        exact absurd hnone (not_or.2 ⟨hreport, hrefused⟩)
    | error fault s => exact ⟨fault, rfl⟩

section Examples

/-- A class without a super class and without members. -/
def plainClass : Bytes :=
  [0xca, 0xfe, 0xba, 0xbe, 0, 0, 0, 50, 0, 3, 1, 0, 1, 65, 7, 0, 1, 0, 33, 0, 2, 0, 0, 0, 0, 0, 0, 0, 0, 0, 0]

/-- A directory with a class file, and an older archive beside it. -/
def workspace : FileSystem :=
  ⟨[(["in"], .directory), (["in", "A.class"], .file plainClass), (["out.jar"], .file [])]⟩

/-- A storage that is full when some bytes of a report have been written. -/
def full : Storage :=
  { refusedPart := some (.rest, 40) }

/-- A job whose report is to stand beside its archive. -/
def unreported : Job :=
  ⟨"in/A.class", "in/../out.jar", some "in/../report.json", true⟩

/-- The report of the job is cut off, and its input is still there. -/
theorem unreported_keeps_input :
    workspace.content? unreported.input = some plainClass ∧
      workspace.resolve? unreported.output ≠ workspace.resolve? unreported.input ∧
      ∃ fault, (unreported.runOn workspace full).result = .error fault ∧
        (unreported.runOn workspace full).files.content? unreported.input = some plainClass := by
  have hinput : workspace.content? unreported.input = some plainClass := by decide +kernel
  have houtput : workspace.resolve? unreported.output ≠ workspace.resolve? unreported.input := by decide +kernel
  have hreport : workspace.resolve? "in/../report.json" ≠ workspace.resolve? unreported.input := by decide +kernel
  obtain ⟨fault, hfails⟩ : ∃ fault, (unreported.runOn workspace full).result = .error fault :=
    fails_of_refusedPart hinput (by decide) (by decide)
  refine ⟨hinput, houtput, fault, hfails, (failed_keeps_input_iff full hinput hfails).2 ⟨houtput, ?_⟩⟩
  rintro - path hpath
  obtain rfl : "in/../report.json" = path := Option.some.inj hpath
  exact hreport

/-- A job whose archive is to stand in the place of its input. -/
def inPlace : Job :=
  ⟨"in/A.class", "in/./A.class", none, true⟩

/-- The job fails, and its input is gone. -/
theorem inPlace_loses_input :
    workspace.content? inPlace.input = some plainClass ∧
      (∃ fault, (inPlace.runOn workspace).result = .error fault) ∧
        (inPlace.runOn workspace).files.content? inPlace.input = none := by
  have hinput : workspace.content? inPlace.input = some plainClass := by decide +kernel
  have hplace : workspace.resolve? inPlace.output = workspace.resolve? inPlace.input := by decide +kernel
  obtain ⟨fault, hfails, hgone⟩ := run_inPlace {} hinput hplace
  exact ⟨hinput, ⟨fault, hfails⟩, hgone⟩

end Examples

end Job

end Unscramble
