import Pkgexec.ChildSpawn
import Pkgexec.ProcessHygiene

/-!
# Child isolation

What the descriptor calls of an entrypoint leave behind, and what a child of it can see. Each
rule covers every outcome of the calls it is about; the loop over `/proc/self/fd` marks a
descriptor or leaves it as it is, and marks all of them where it reports success.
-/

namespace Pkgexec.Hygiene
open CStrings FuelRuns DecimalNumerals DescriptorTables Spawn

def sealing (d : Descriptor File) : Descriptor File := { d with cloexec := true }

/-- Each descriptor is as it was, or it is one of those from `lowest` on and is marked now. -/
def Marks (lowest : ℤ) (t t' : Fds) : Prop := ∀ fd : ℕ,
  t'.entry fd = t.entry fd ∨ lowest ≤ fd ∧ t'.entry fd = (t.entry fd).map sealing

/-- The descriptor is closed, or it is marked. -/
def SealedAt (t : Fds) (fd : ℕ) : Prop := ∀ d, t.entry fd = some d → d.cloexec = true

/-- A name of the directory that the loop acts on. -/
def Names (name : CStr) (fd : ℕ) : Prop := name.bytes = numeral fd

/-- Every open descriptor is a name in the directory, and its number is an `int`. -/
def Complete (names : List CStr) (t : Fds) : Prop :=
  ∀ fd, t.entry fd ≠ none → fd < 2 ^ 31 ∧ ∃ name ∈ names, Names name fd

/-- No call fails. -/
def ChannelOs.Works (os : ChannelOs) : Prop := os.dup = true ∧ os.setFd = true ∧ os.dup2 = true

def NullOs.Works (os : NullOs) : Prop := os.openNull = true ∧ os.dup2 = true ∧ os.setFd = true

def ScrubOs.Works (os : ScrubOs) : Prop :=
  os.clearenv = true ∧ os.setPath = true ∧ os.setLcAll = true ∧ os.setFrontend = true

def CloexecOs.Works (os : CloexecOs) : Prop := os.opendir = true ∧ ∀ fd, os.setFd fd = true

section Marking

variable {os : CloexecOs} {lowest : ℤ} {dirfd : ℕ} {t t' t'' : Fds} {I : Fds → Prop}

theorem Marks.refl (lowest : ℤ) (t : Fds) : Marks lowest t t := fun _ => .inl rfl

theorem Marks.trans (h : Marks lowest t t') (h' : Marks lowest t' t'') : Marks lowest t t'' := by
  intro fd
  rcases h' fd with hsame | ⟨hfd, hmark⟩
  · rw [hsame]
    exact h fd
  · refine .inr ⟨hfd, ?_⟩
    rcases h fd with h | ⟨-, h⟩
    · rw [hmark, h]
    · rw [hmark, h, Option.map_map]
      rfl

theorem Marks.sealedAt (h : Marks lowest t t') {fd : ℕ} (hsealed : SealedAt t fd) :
    SealedAt t' fd := by
  intro d hd
  rcases h fd with hsame | ⟨-, hmark⟩
  · exact hsealed d (hsame ▸ hd)
  · rw [hmark, Option.map_eq_some_iff] at hd
    obtain ⟨d', -, rfl⟩ := hd
    rfl

theorem Marks.below (h : Marks lowest t t') {fd : ℕ} (hfd : (fd : ℤ) < lowest) :
    t'.entry fd = t.entry fd :=
  (h fd).resolve_right fun h => absurd h.1 (not_le.mpr hfd)

theorem Marks.assign {fd : ℕ} {d : Descriptor File} (hd : t.entry fd = some d)
    (hfd : lowest ≤ fd) : Marks lowest t (t.assign fd (some ⟨d.file, true⟩)) := by
  intro fd'
  by_cases he : fd' = fd
  · subst he
    refine .inr ⟨hfd, ?_⟩
    rw [Table.entry_assign_self, hd]
    rfl
  · exact .inl (Table.entry_assign_ne _ _ he)

/-- The `int` that is read from the name of a descriptor. -/
theorem bmod_strtol_numeral {fd : ℕ} (hfd : fd < 2 ^ 31) :
    (strtol (numeral fd)).bmod (2 ^ 32) = fd := by
  rw [strtol_numeral (by omega)]
  exact Int.bmod_eq_of_le (by omega) (by omega)

theorem head_numeral (fd : ℕ) : (numeral fd).head?.any isDigit = true := by
  cases h : numeral fd with
  | nil => exact absurd h (numeral_ne_nil fd)
  | cons b bs => exact (numeral_spec fd).1 b (h ▸ List.mem_cons_self)

/-- One name: a mark at most, and where no call fails its descriptor is marked. -/
theorem markEntry_wp {name : CStr} {Q : Bool → Fds → Prop}
    (hQ : ∀ ok t', Marks lowest t t' → (os.Works → ok = true) →
      (ok = true → ∀ fd : ℕ, Names name fd → fd < 2 ^ 31 → lowest ≤ fd → fd ≠ dirfd →
        SealedAt t' fd) → Q ok t') :
    wp (markEntry os lowest dirfd name) Q I t := by
  rw [markEntry]
  split
  · rename_i hdigit
    refine hQ true t (.refl _ _) (fun _ => rfl) fun _ fd hname => ?_
    rw [hname, head_numeral] at hdigit
    simp at hdigit
  dsimp only
  split
  · rename_i hskip
    refine hQ true t (.refl _ _) (fun _ => rfl) fun _ fd hname hfd hlow hdir => ?_
    rw [hname, bmod_strtol_numeral hfd] at hskip
    omega
  rename_i hgo
  rw [not_or, not_lt] at hgo
  obtain ⟨n, hn⟩ : ∃ n, n = ((strtol name.bytes).bmod (2 ^ 32)).toNat := ⟨_, rfl⟩
  rw [← hn, wp_bind, wp_getFd]
  have hname : ∀ fd : ℕ, Names name fd → fd < 2 ^ 31 → n = fd := by
    intro fd hname hfd
    rw [hn, hname, bmod_strtol_numeral hfd, Int.toNat_natCast]
  cases hd : t.entry n with
  | none =>
    refine hQ true t (.refl _ _) (fun _ => rfl) fun _ fd h hfd _ _ d hd' => ?_
    rw [hname fd h hfd, hd'] at hd
    cases hd
  | some d =>
    simp only [Option.map_some]
    split
    · refine setFd_wp (fun hfailed => hQ false t (.refl _ _) (fun hworks => ?_) nofun)
        fun d' hd' => ?_
      · rw [hfailed (hworks.2 n)] at hd
        cases hd
      obtain rfl : d = d' := Option.some_inj.mp (hd.symm.trans hd')
      refine hQ true _ (.assign hd ?_) (fun _ => rfl) fun _ fd h hfd _ _ => ?_
      · rw [hn]
        omega
      · rw [hname fd h hfd]
        intro d' hd'
        rw [Table.entry_assign_self] at hd'
        rw [← Option.some_inj.mp hd']
    · rename_i hmarked
      refine hQ true t (.refl _ _) (fun _ => rfl) fun _ fd h hfd _ _ d' hd' => ?_
      rw [hname fd h hfd, hd'] at hd
      rw [Option.some_inj.mp hd]
      simpa using hmarked

theorem markEntries_wp {names : List CStr} {Q : Bool → Fds → Prop}
    (hQ : ∀ ok t', Marks lowest t t' → (os.Works → ok = true) →
      (ok = true → ∀ name ∈ names, ∀ fd : ℕ, Names name fd → fd < 2 ^ 31 → lowest ≤ fd →
        fd ≠ dirfd → SealedAt t' fd) → Q ok t') :
    wp (markEntries os lowest dirfd names) Q I t := by
  induction names generalizing t Q with
  | nil =>
    exact hQ true t (.refl _ _) (fun _ => rfl) fun _ name hname => absurd hname List.not_mem_nil
  | cons name names ih =>
    rw [markEntries, wp_bind]
    refine markEntry_wp fun ok t' hmarks hworks hok => ?_
    rw [wp_bind]
    refine ih fun rest t'' hmarks' hworks' hrest => ?_
    refine hQ _ t'' (hmarks.trans hmarks') (fun h => ?_) fun hboth => ?_
    · rw [hworks h, hworks' h]
      rfl
    obtain ⟨hok', hrest'⟩ := (Bool.and_eq_true _ _).mp hboth
    intro name' hname' fd h hfd hlow hdir
    rcases List.mem_cons.mp hname' with rfl | hname'
    · exact hmarks'.sealedAt (hok hok' fd h hfd hlow hdir)
    · exact hrest hrest' name' hname' fd h hfd hlow hdir

end Marking

section Calls

variable {t : Fds} {I : Fds → Prop}

/-- What a call opens and closes again is gone. -/
theorem entry_assign_twice {fd : ℕ} (hfree : t.entry fd = none) (d : Option (Descriptor File))
    (fd' : ℕ) : ((t.assign fd d).assign fd none).entry fd' = t.entry fd' := by
  by_cases he : fd' = fd
  · rw [he, Table.entry_assign_self, hfree]
  · rw [Table.entry_assign_ne _ _ he, Table.entry_assign_ne _ _ he]

/-- On success every descriptor from `lowest` on is marked, if the directory is complete. -/
theorem pkgxCloexecFrom_wp {os : CloexecOs} {lowest : ℤ} {Q : Bool → Fds → Prop}
    (hQ : ∀ ok t', Marks lowest t t' → (os.Works → ok = true) →
      (ok = true → Complete (os.readdir (t.assign t.lowestFree (some ⟨.fdDirectory, true⟩)))
        (t.assign t.lowestFree (some ⟨.fdDirectory, true⟩)) →
          ∀ fd : ℕ, lowest ≤ fd → SealedAt t' fd) → Q ok t') :
    wp (pkgxCloexecFrom os lowest) Q I t := by
  rw [pkgxCloexecFrom, wp_bind]
  refine openFile_wp (fun hfailed => hQ false t (.refl _ _) (fun h => ?_) nofun) ?_
  · rw [h.1] at hfailed
    cases hfailed
  obtain ⟨dirfd, hdirfd⟩ : ∃ dirfd, dirfd = t.lowestFree := ⟨_, rfl⟩
  have hfree : t.entry dirfd = none := hdirfd ▸ t.entry_lowestFree
  rw [← hdirfd] at hQ ⊢
  dsimp only
  generalize ht₁ : t.assign dirfd (some ⟨.fdDirectory, true⟩) = t₁ at hQ ⊢
  have hopen : ∀ fd, fd ≠ dirfd → t₁.entry fd = t.entry fd := by
    intro fd hne
    rw [← ht₁, Table.entry_assign_ne _ _ hne]
  rw [wp_bind, wp_get, wp_bind]
  refine markEntries_wp fun ok t₂ hmarks hworks hok => ?_
  rw [wp_bind, wp_close, wp_pure]
  have hrest : ∀ fd, fd ≠ dirfd → (t₂.assign dirfd none).entry fd = t₂.entry fd :=
    fun fd hne => Table.entry_assign_ne _ _ hne
  refine hQ ok _ ?_ hworks fun hsuccess hcomplete fd hlow => ?_
  · intro fd
    by_cases he : fd = dirfd
    · rw [he, Table.entry_assign_self, hfree]
      exact .inl rfl
    · rw [hrest fd he, ← hopen fd he]
      exact hmarks fd
  · intro d hd
    by_cases he : fd = dirfd
    · rw [he, Table.entry_assign_self] at hd
      cases hd
    · rw [hrest fd he] at hd
      have hopened : t₁.entry fd ≠ none := by
        intro hnone
        rcases hmarks fd with h | ⟨-, h⟩ <;> rw [hd, hnone] at h <;> cases h
      obtain ⟨hsmall, name, hname, hnames⟩ := hcomplete fd hopened
      exact hok hsuccess name hname fd hnames hsmall hlow he d hd

/-- Nothing but descriptor zero is touched, and on success it is `/dev/null`. -/
theorem pkgxNullStdin_wp {os : NullOs} {Q : Bool → Fds → Prop}
    (hQ : ∀ ok t', (∀ fd, fd ≠ 0 → t'.entry fd = t.entry fd) → (os.Works → ok = true) →
      (ok = true → t'.entry 0 = some ⟨.devNull, false⟩) → Q ok t') :
    wp (pkgxNullStdin os) Q I t := by
  -- `keepStdin` with the null device at descriptor zero
  have hkeep : ∀ t₁ : Fds, (∀ fd, fd ≠ 0 → t₁.entry fd = t.entry fd) →
      (∃ cloexec, t₁.entry 0 = some ⟨.devNull, cloexec⟩) → wp (keepStdin os) Q I t₁ := by
    rintro t₁ hrest ⟨cloexec, hzero⟩
    rw [keepStdin, wp_bind, wp_getFd, hzero]
    cases cloexec with
    | false => exact hQ true t₁ hrest (fun _ => rfl) fun _ => hzero
    | true =>
      refine setFd_wp (fun hfailed => hQ false t₁ hrest (fun h => ?_) nofun) fun d hd => ?_
      · rw [hfailed h.2.2] at hzero
        cases hzero
      obtain rfl : _ = d := Option.some_inj.mp (hzero.symm.trans hd)
      refine hQ true _ (fun fd hne => ?_) (fun _ => rfl) fun _ => Table.entry_assign_self _ _ _
      rw [Table.entry_assign_ne _ _ hne, hrest fd hne]
  rw [pkgxNullStdin, wp_bind]
  refine openFile_wp (fun hfailed => hQ false t (fun _ _ => rfl) (fun h => ?_) nofun) ?_
  · rw [h.1] at hfailed
    cases hfailed
  obtain ⟨n, hn⟩ : ∃ n, n = t.lowestFree := ⟨_, rfl⟩
  have hfree : t.entry n = none := hn ▸ t.entry_lowestFree
  rw [← hn]
  dsimp only
  split
  · rename_i hne
    rw [wp_bind]
    refine dup2_wp hne (fun hfailed => ?_) fun d hd => ?_
    · refine hQ false _ (fun fd _ => entry_assign_twice hfree _ fd) (fun h => ?_) nofun
      have hopen := hfailed h.2.1
      rw [Table.entry_assign_self] at hopen
      cases hopen
    · rw [Table.entry_assign_self] at hd
      obtain rfl := Option.some_inj.mp hd
      simp only [Bool.not_true, Bool.false_eq_true, if_false, wp_bind, wp_close]
      refine hkeep _ (fun fd hzero => ?_) ⟨false, ?_⟩
      · by_cases he : fd = n
        · rw [he, Table.entry_assign_self, hfree]
        · rw [Table.entry_assign_ne _ _ he, Table.entry_assign_ne _ _ hzero,
            Table.entry_assign_ne _ _ he]
      · rw [Table.entry_assign_ne _ _ hne.symm, Table.entry_assign_self]
  · rename_i heq
    rw [not_not.mp heq]
    exact hkeep _ (fun fd hne => Table.entry_assign_ne _ _ hne)
      ⟨false, Table.entry_assign_self _ _ _⟩

/-- What the result channel makes of a table with the three standard descriptors. -/
structure Channel (t : Fds) (rfd : ℕ) (t' : Fds) : Prop where
  lowest : rfd = t.lowestFree
  results : t'.entry rfd = (t.entry 1).map sealing
  stdout : t'.entry 1 = (t.entry 2).map fun d => ⟨d.file, false⟩
  rest : ∀ fd, fd ≠ 1 → fd ≠ rfd → t'.entry fd = t.entry fd

/-- With standard error closed, the channel may take its number. -/
theorem pkgxResultChannelOpen_wp {os : ChannelOs} {Q : Option ℕ → Fds → Prop}
    (failed : ∀ t', (t.entry 1 ≠ none → t.entry 2 ≠ none → ¬ os.Works) →
      (∀ fd, t'.entry fd = t.entry fd) → Q none t')
    (opened : ∀ rfd t', (t.entry 2 ≠ none → Channel t rfd t') → Q (some rfd) t') :
    wp (pkgxResultChannelOpen os) Q I t := by
  rw [pkgxResultChannelOpen, wp_bind]
  refine dup_wp (fun hfailed => failed t (fun hstdout _ h => hstdout (hfailed h.1)) fun _ => rfl)
    fun d hd => ?_
  obtain ⟨rfd, hrfd⟩ : ∃ rfd, rfd = t.lowestFree := ⟨_, rfl⟩
  have hfree : t.entry rfd = none := hrfd ▸ t.entry_lowestFree
  rw [← hrfd]
  have hne : (1 : ℕ) ≠ rfd := fun he => by rw [← he, hd] at hfree; cases hfree
  dsimp only
  rw [wp_bind]
  refine setFd_wp (fun hfailed => ?_) fun d' hd' => ?_
  · refine failed _ (fun _ _ h => ?_) fun fd => entry_assign_twice hfree _ fd
    have hopen := hfailed h.2.1
    rw [Table.entry_assign_self] at hopen
    cases hopen
  rw [Table.entry_assign_self] at hd'
  obtain rfl := Option.some_inj.mp hd'
  generalize ht₁ : (t.assign rfd (some ⟨d.file, false⟩)).assign rfd (some ⟨d.file, true⟩) = t₁
  have hself : t₁.entry rfd = some ⟨d.file, true⟩ := by rw [← ht₁, Table.entry_assign_self]
  have hother : ∀ fd, fd ≠ rfd → t₁.entry fd = t.entry fd := by
    intro fd he
    rw [← ht₁, Table.entry_assign_ne _ _ he, Table.entry_assign_ne _ _ he]
  simp only [Bool.not_true, Bool.false_eq_true, if_false]
  rw [wp_bind]
  refine dup2_wp (by decide) (fun hfailed => ?_) fun d₂ hd₂ => ?_
  · refine failed _ (fun _ hstderr h => hstderr ?_) fun fd => ?_
    · rw [← hother 2 fun he => hstderr (he ▸ hfree)]
      exact hfailed h.2.2
    by_cases he : fd = rfd
    · rw [he, Table.entry_assign_self, hfree]
    · rw [Table.entry_assign_ne _ _ he, hother fd he]
  · simp only [Bool.not_true, Bool.false_eq_true, if_false, wp_pure]
    refine opened rfd _ fun hstderr => ⟨hrfd, ?_, ?_, fun fd h₁ hfd => ?_⟩
    · rw [Table.entry_assign_ne _ _ hne.symm, hself, hd]
      rfl
    · rw [Table.entry_assign_self, ← hother 2 fun he => hstderr (he ▸ hfree), hd₂]
      rfl
    · rw [Table.entry_assign_ne _ _ h₁, hother fd hfd]

end Calls

/-- The file actions of a spawn with an input; they are done in the child. -/
def fileActions (rd wr : ℕ) : Run Fds Unit := do
  let _ ← dup2 true rd 0
  close rd
  close wr

/-- The descriptors in `pkgx_spawn_wait_env`: what the child has open after its `exec`, and
`none` where no child is started. -/
def spawnFds (os : SpawnOs) (argv : List CStr) (input : Option CStr)
    (extraEnv : Option (List CStr)) : Run Fds (Option Fds) :=
  if argv.isEmpty || (childEnv os extraEnv).isNone then return none
  else
    match input with
    | none => do
      if !os.actionsInit || !os.spawn then return none
      else return some (← get).exec
    | some _ => do
      match ← pipe os.pipe .pipeRead .pipeWrite with
      | none => return none
      | some (rd, wr) =>
        if !os.actionsInit || !os.addDup2 || !os.addCloseRead || !os.addCloseWrite then do
          close rd
          close wr
          return none
        else do
          let child := (FuelRuns.exec (fileActions rd wr) (← get)).2
          close rd
          close wr
          return if os.spawn then some child.exec else none

/-- Standard input, and the errors of the caller twice. -/
def standard (stdin err : File) : Fds :=
  [some ⟨stdin, false⟩, some ⟨err, false⟩, some ⟨err, false⟩]

/-- The standard input of a child. -/
def childStdin : Option CStr → File
  | none => .devNull
  | some _ => .pipeRead

/-- Nothing but `/dev/null` and the errors of the caller outlives an `exec`. -/
structure Sealed (err : File) (t : Fds) : Prop where
  stdin : t.entry 0 = some ⟨.devNull, false⟩
  stdout : t.entry 1 = some ⟨err, false⟩
  stderr : t.entry 2 = some ⟨err, false⟩
  rest : ∀ fd, 3 ≤ fd → SealedAt t fd

section Child

variable {err : File} {t t' : Fds} {I : Fds → Prop}

theorem entry_standard (stdin err : File) (fd : ℕ) : (standard stdin err).entry (fd + 3) = none :=
  rfl

theorem Sealed.congr (h : Sealed err t) (heq : ∀ fd, t'.entry fd = t.entry fd) : Sealed err t' where
  stdin := (heq 0).trans h.stdin
  stdout := (heq 1).trans h.stdout
  stderr := (heq 2).trans h.stderr
  rest := fun fd hfd d hd => h.rest fd hfd d (heq fd ▸ hd)

/-- A descriptor from three on may come and go if it is closed on `exec`. -/
theorem Sealed.assign (h : Sealed err t) {fd : ℕ} (hfd : 3 ≤ fd) {d : Option (Descriptor File)}
    (hd : ∀ d', d = some d' → d'.cloexec = true) : Sealed err (t.assign fd d) where
  stdin := (Table.entry_assign_ne _ _ (by omega)).trans h.stdin
  stdout := (Table.entry_assign_ne _ _ (by omega)).trans h.stdout
  stderr := (Table.entry_assign_ne _ _ (by omega)).trans h.stderr
  rest := by
    intro fd' hfd' d' hd'
    by_cases he : fd' = fd
    · rw [he, Table.entry_assign_self] at hd'
      exact hd d' hd'
    · rw [Table.entry_assign_ne _ _ he] at hd'
      exact h.rest fd' hfd' d' hd'

theorem Sealed.le_of_free (h : Sealed err t) {fd : ℕ} (hfree : t.entry fd = none) : 3 ≤ fd := by
  by_contra hlt
  obtain rfl | rfl | rfl : fd = 0 ∨ fd = 1 ∨ fd = 2 := by omega
  · rw [h.stdin] at hfree
    cases hfree
  · rw [h.stdout] at hfree
    cases hfree
  · rw [h.stderr] at hfree
    cases hfree

theorem Sealed.entry_exec (h : Sealed err t) (fd : ℕ) :
    t.exec.entry fd = (standard .devNull err).entry fd := by
  rw [Table.entry_exec]
  rcases fd with _ | _ | _ | fd
  · rw [h.stdin]
    rfl
  · rw [h.stdout]
    rfl
  · rw [h.stderr]
    rfl
  · rw [entry_standard, Option.filter_eq_none_iff]
    intro d hd
    simp [h.rest (fd + 3) (by omega) d hd]

/-- With the pipe in place of the null device. -/
theorem Sealed.entry_fileActions (h : Sealed err t) {rd wr : ℕ} (hrd : t.entry rd = none)
    (hwr : t.entry wr = none) (hne : rd ≠ wr) (fd : ℕ) :
    (FuelRuns.exec (fileActions rd wr) ((t.assign rd (some ⟨.pipeRead, false⟩)).assign wr
      (some ⟨.pipeWrite, false⟩))).2.exec.entry fd = (standard .pipeRead err).entry fd := by
  generalize ht₁ : (t.assign rd (some ⟨.pipeRead, false⟩)).assign wr
    (some ⟨.pipeWrite, false⟩) = t₁
  have hself : t₁.entry rd = some ⟨.pipeRead, false⟩ := by
    rw [← ht₁, Table.entry_assign_ne _ _ hne, Table.entry_assign_self]
  have hrd3 := h.le_of_free hrd
  have hwr3 := h.le_of_free hwr
  have hactions : (FuelRuns.exec (fileActions rd wr) t₁).2 =
      ((t₁.assign 0 (some ⟨.pipeRead, false⟩)).assign rd none).assign wr none := by
    simp only [fileActions, exec_bind, dup2, exec_modifyGet, hself, close, exec_modify]
    rw [if_neg (by decide), if_neg (by omega)]
  rw [hactions, Table.entry_exec, Table.entry_assign, Table.entry_assign, Table.entry_assign, ← ht₁,
    Table.entry_assign, Table.entry_assign]
  rcases fd with _ | _ | _ | fd
  · rw [if_neg (by omega), if_neg (by omega), if_pos rfl]
    rfl
  · rw [if_neg (by omega), if_neg (by omega), if_neg (by decide), if_neg (by omega),
      if_neg (by omega), h.stdout]
    rfl
  · rw [if_neg (by omega), if_neg (by omega), if_neg (by decide), if_neg (by omega),
      if_neg (by omega), h.stderr]
    rfl
  · rw [entry_standard, Option.filter_eq_none_iff]
    intro d hd
    split at hd
    · cases hd
    · split at hd
      · cases hd
      · rw [if_neg (by omega)] at hd
        simp [h.rest (fd + 3) (by omega) d hd]

/-- The parent has the same descriptors open after a spawn, and the child of one has the three
standard descriptors only. -/
theorem Sealed.spawnFds_wp (h : Sealed err t) {os : SpawnOs} {argv : List CStr}
    {input : Option CStr} {extraEnv : Option (List CStr)} {Q : Option Fds → Fds → Prop}
    (hQ : ∀ child t', (∀ fd, t'.entry fd = t.entry fd) →
      (∀ c, child = some c → ∀ fd, c.entry fd = (standard (childStdin input) err).entry fd) →
        Q child t') :
    wp (spawnFds os argv input extraEnv) Q I t := by
  have hnone : Q none t := hQ none t (fun _ => rfl) nofun
  rw [spawnFds.eq_def]
  split
  · exact hnone
  cases input with
  | none =>
    dsimp only
    split
    · exact hnone
    · rw [wp_bind, wp_get, wp_pure]
      refine hQ _ t (fun _ => rfl) fun c hc fd => ?_
      rw [← Option.some_inj.mp hc]
      exact h.entry_exec fd
  | some input =>
    dsimp only
    rw [wp_bind]
    refine pipe_wp (fun _ => hnone) fun _ rd wr hrd hwr hne => ?_
    dsimp only
    have hclosed : ∀ fd, ((((t.assign rd (some ⟨.pipeRead, false⟩)).assign wr
        (some ⟨.pipeWrite, false⟩)).assign rd none).assign wr none).entry fd = t.entry fd := by
      intro fd
      by_cases hw : fd = wr
      · rw [hw, Table.entry_assign_self, hwr]
      · rw [Table.entry_assign_ne _ _ hw]
        by_cases hr : fd = rd
        · rw [hr, Table.entry_assign_self, hrd]
        · rw [Table.entry_assign_ne _ _ hr, Table.entry_assign_ne _ _ hw,
            Table.entry_assign_ne _ _ hr]
    split
    · rw [wp_bind, wp_close, wp_bind, wp_close, wp_pure]
      exact hQ none _ hclosed nofun
    · rw [wp_bind, wp_get, wp_bind, wp_close, wp_bind, wp_close, wp_pure]
      refine hQ _ _ hclosed fun c hc fd => ?_
      split at hc
      · rw [← Option.some_inj.mp hc]
        exact h.entry_fileActions hrd hwr hne fd
      · cases hc

/-- Descriptors are handed to a child exactly where the spawn helper starts one. -/
theorem spawnFds_started {os : SpawnOs} {argv : List CStr} {input : Option CStr}
    {extraEnv : Option (List CStr)} :
    wp (spawnFds os argv input extraEnv)
      (fun child _ => child.isSome = true ↔
        (pkgxSpawnWaitEnv os argv input extraEnv).started = true) I t := by
  have hstarted : (pkgxSpawnWaitEnv os argv input extraEnv).started = true ↔
      argv ≠ [] ∧ os.Starts input extraEnv := by
    rcases pkgxSpawnWaitEnv_course os argv input extraEnv with ⟨h, env, hrun⟩ | ⟨h, hrun⟩
    · exact iff_of_true (by rw [hrun]) h
    · exact iff_of_false (by simp [hrun]) h
  rw [hstarted, spawnFds.eq_def]
  split
  · rename_i hargs
    refine iff_of_false nofun fun h => ?_
    simp [h.1, Option.isNone_iff_eq_none, Option.isSome_iff_ne_none.mp h.2.env] at hargs
  rename_i hargs
  obtain ⟨hargv, henv⟩ : argv ≠ [] ∧ (childEnv os extraEnv).isSome = true := by
    simpa [Option.isNone_iff_eq_none, Option.isSome_iff_ne_none] using hargs
  cases input with
  | none =>
    dsimp only
    split
    · rename_i hfail
      refine iff_of_false nofun fun h => ?_
      simp [h.2.actionsInit, h.2.spawn] at hfail
    · rename_i hcalls
      obtain ⟨hinit, hspawn⟩ : os.actionsInit = true ∧ os.spawn = true := by simpa using hcalls
      rw [wp_bind, wp_get, wp_pure]
      exact iff_of_true rfl ⟨hargv, henv, hinit, nofun, hspawn⟩
  | some input =>
    dsimp only
    rw [wp_bind]
    refine pipe_wp (fun hpipe => ?_) fun hpipe rd wr _ _ _ => ?_
    · exact iff_of_false nofun fun h =>
        absurd (h.2.redirect rfl).1 (by simp [hpipe])
    dsimp only
    split
    · rename_i hfail
      rw [wp_bind, wp_close, wp_bind, wp_close, wp_pure]
      refine iff_of_false nofun fun h => ?_
      obtain ⟨-, hdup, hread, hwrite⟩ := h.2.redirect rfl
      simp [h.2.actionsInit, hdup, hread, hwrite] at hfail
    · rename_i hcalls
      simp only [Bool.or_eq_true, Bool.not_eq_true', not_or, Bool.not_eq_false] at hcalls
      obtain ⟨⟨⟨hinit, hdup⟩, hread⟩, hwrite⟩ := hcalls
      rw [wp_bind, wp_get, wp_bind, wp_close, wp_bind, wp_close, wp_pure]
      cases hspawn : os.spawn with
      | true =>
        exact iff_of_true rfl ⟨hargv, henv, hinit, fun _ => ⟨hpipe, hdup, hread, hwrite⟩, hspawn⟩
      | false => exact iff_of_false nofun fun h => by simp [h.2.spawn] at hspawn

end Child

end Pkgexec.Hygiene
