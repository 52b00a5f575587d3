/-
  WfbYa.Daemon.OneDaemon — there is at most one daemon, and its pid is in the file.

  Two things are taken for granted by `create_pid_file` that need not be so: that a shared lock
  becomes an exclusive one in one step, and that no daemon unlinks the file while a process
  has it open.

  - `calm_oneDaemon`: where both hold (`Calm`).
  - `split_conversion_breaks` / `unlink_breaks`: two daemons, where one of them does not.
-/

import WfbYa.Daemon.PidFile

namespace WfbYa.Daemon

open WfbYa.Lib

/-- A conversion is one step. -/
def Whole : Act → Prop
  | .release _ => False
  | _ => True

/-- A daemon unlinks the file while no process has it open. -/
def Undisturbed (s : World) : Act → Prop
  | .cleanup _ => ∀ q < s.procs.length, (s.proc q).file = none
  | _ => True

def Calm (s : World) (a : Act) : Prop := Whole a ∧ Undisturbed s a

/-! ## Processes and files -/

variable {s s' : World} {p q f : Nat} {x : Proc} {pid : Option Nat}

theorem proc_lt (h : s.proc p ≠ .absent) : p < s.procs.length := by
  by_contra hlt
  exact h (by simp [World.proc, List.getD_eq_getElem?_getD, Nat.le_of_not_lt hlt])

theorem proc_move (h : p < s.procs.length ∨ x = .absent) (q : Nat) : (s.move p x).proc q = if q = p then x else s.proc q := by
  unfold World.move World.proc
  rw [List.getD_eq_getElem?_getD, List.getElem?_set]
  by_cases hq : q = p
  · subst hq
    rcases h with hlt | rfl
    · simp [hlt]
    · by_cases hlt : q < s.procs.length <;> simp [hlt]
  · simp [hq, Ne.symm hq, List.getD_eq_getElem?_getD]

@[simp] theorem proc_put : (s.put f pid).proc p = s.proc p := rfl

theorem pid_put (h : f < s.files.length) : (s.put f pid).pid f = pid := by
  simp [World.put, World.pid, h]

/-- A lock is on a file that is open. -/
theorem locks_file (h : x.locks = true) : ∃ f, x.file = some f := by
  cases x <;> first | exact ⟨_, rfl⟩ | cases h

theorem excludes_locks (h : x.excludes = true) : x.locks = true := by
  cases x <;> first | rfl | cases h

/-- It has found no daemon. -/
def Proc.passed : Proc → Bool
  | .checked _ | .released _ | .exclusive _ | .truncated _ | .written _ => true
  | _ => false

/-! ## The invariant -/

structure Single (s : World) : Prop where
  here : ∀ p f, (s.proc p).file = some f ∨ s.proc p = .daemon f → s.path = some f
  made : ∀ f, s.path = some f → f < s.files.length
  alone : ∀ p q, (s.proc p).excludes = true → (s.proc q).locks = true → p = q
  noted : ∀ p f pid, s.proc p = .read f pid → s.pid f = pid
  named : ∀ p f, s.proc p = .written f ∨ s.proc p = .daemon f → s.pid f = some p
  barred : ∀ p q f, s.proc p = .daemon f → (s.proc q).passed = false
  whole : ∀ p f, s.proc p ≠ .released f

/-- A process may come to be there. -/
structure Fits (s : World) (p : Nat) (x : Proc) : Prop where
  here : ∀ f, x.file = some f ∨ x = .daemon f → s.path = some f
  alone : x.excludes = true → ∀ q, q ≠ p → (s.proc q).locks = false
  shares : x.locks = true → ∀ q, q ≠ p → (s.proc q).excludes = false
  noted : ∀ f pid, x = .read f pid → s.pid f = pid
  named : ∀ f, x = .written f ∨ x = .daemon f → s.pid f = some p
  barred : ∀ f, x = .daemon f → ∀ q, q ≠ p → (s.proc q).passed = false
  passed : x.passed = true → ∀ q f, q ≠ p → s.proc q ≠ .daemon f
  whole : ∀ f, x ≠ .released f

theorem Single.move (h : Single s) (hx : Fits s p x) (hp : p < s.procs.length ∨ x = .absent) : Single (s.move p x) := by
  have hproc := proc_move hp
  constructor
  · intro q f
    rw [hproc]
    split
    · exact hx.here f
    · exact h.here q f
  · exact h.made
  · intro q r
    rw [hproc, hproc]
    intro hq hr
    split at hq
    · next heq =>
      subst heq
      by_contra hne
      rw [if_neg (Ne.symm hne), hx.alone hq r (Ne.symm hne)] at hr
      cases hr
    · next hne =>
      split at hr
      · rw [hx.shares hr q hne] at hq
        cases hq
      · exact h.alone q r hq hr
  · intro q f pid
    rw [hproc]
    split
    · exact hx.noted f pid
    · exact h.noted q f pid
  · intro q f
    rw [hproc]
    split
    · next heq =>
      subst heq
      exact hx.named f
    · exact h.named q f
  · intro q r f
    rw [hproc, hproc]
    intro hq
    split at hq
    · next heq =>
      subst heq
      split
      · rw [hq]
        rfl
      · next hne => exact hx.barred f hq r hne
    · next hne =>
      split
      · by_contra hpassed
        exact hx.passed (Bool.not_eq_false _ ▸ hpassed) q f hne hq
      · exact h.barred q r f hq
  · intro q f
    rw [hproc]
    split
    · exact hx.whole f
    · exact h.whole q f

/-- It has neither the file nor a lock. -/
def Proc.idle : Proc → Bool
  | .absent | .other | .started | .leaving | .killing _ => true
  | _ => false

theorem fits_idle (h : x.idle = true) : Fits s p x := by
  cases x <;> simp [Proc.idle] at h <;> constructor <;> simp [Proc.file, Proc.excludes, Proc.locks, Proc.passed]

/-- The process with the exclusive lock writes. -/
theorem Single.put (h : Single s) (hp : (s.proc p).excludes = true) (hn : ∀ f, s.proc p ≠ .written f) : Single (s.put f pid) := by
  have hpassed : (s.proc p).passed = true := by
    generalize s.proc p = y at hp
    cases y <;> first | rfl | cases hp
  refine ⟨h.here, fun g hg => ?_, h.alone, fun q g pid hq => ?_, fun q g hq => ?_, h.barred, h.whole⟩
  · simpa [World.put] using h.made g hg
  · have hqp : p = q := h.alone p q hp (by rw [show (s.proc q) = _ from hq]; rfl)
    subst hqp
    rw [show s.proc p = _ from hq] at hp
    cases hp
  · rcases hq with hq | hq
    · have hqp : p = q := h.alone p q hp (by rw [show (s.proc q) = _ from hq]; rfl)
      subst hqp
      exact absurd hq (hn g)
    · rw [h.barred q p g hq] at hpassed
      cases hpassed

/-! ## Locks -/

theorem Single.unlocked (h : Single s) {lock : Proc → Bool} (hlock : ∀ x, lock x = true → ∃ f, x.file = some f)
    (hpath : s.path = some f) (hu : s.Unlocked p f lock) : ∀ q, q ≠ p → lock (s.proc q) = false := by
  intro q hne
  by_contra hq
  rw [Bool.not_eq_false] at hq
  obtain ⟨g, hg⟩ := hlock _ hq
  have hgf : g = f := Option.some.inj ((h.here q g (.inl hg)).symm.trans hpath)
  have hlt : q < s.procs.length := proc_lt fun habs => by
    rw [habs] at hg
    cases hg
  exact hu q hlt hne hq (hgf ▸ hg)

theorem Single.shared (h : Single s) (hp : (s.proc p).locks = true) : ∀ q, q ≠ p → (s.proc q).excludes = false := by
  intro q hne
  by_contra hq
  exact hne (h.alone q p (Bool.not_eq_false _ ▸ hq) hp)

theorem Single.exclusive (h : Single s) (hp : (s.proc p).excludes = true) : ∀ q, q ≠ p → (s.proc q).locks = false := by
  intro q hne
  by_contra hq
  exact hne (h.alone p q hp (Bool.not_eq_false _ ▸ hq)).symm

theorem Single.not_daemon (h : Single s) (hp : (s.proc p).passed = true) (q f : Nat) : s.proc q ≠ .daemon f := by
  intro hq
  rw [h.barred q p f hq] at hp
  cases hp

/-- A process that has the file open. -/
theorem Single.opened (h : Single s) (hp : s.proc p = x) (hf : x.file = some f) : s.path = some f ∧ p < s.procs.length := by
  refine ⟨h.here p f (.inl (hp ▸ hf)), proc_lt fun habs => ?_⟩
  rw [← hp, habs] at hf
  cases hf

/-- A process with a shared lock, for the pid or before it. -/
theorem Single.sharing (h : Single s) (hlt : p < s.procs.length) (hpath : s.path = some f)
    (hnone : ∀ q, q ≠ p → (s.proc q).excludes = false) (hx : x = .shared f ∨ x = .killShared f ∨ x = .read f (s.pid f)) :
    Single (s.move p x) := by
  refine h.move ⟨?_, ?_, fun _ => hnone, ?_, ?_, ?_, ?_, ?_⟩ (.inl hlt) <;> rcases hx with rfl | rfl | rfl <;>
    simp [Proc.file, Proc.excludes, Proc.passed, hpath]

/-! ## One step -/

/-- `flock` to exclusive, in one step. -/
theorem Single.excluded (h : Single s) (hp : s.proc p = .checked f) {evs : List Ev} (hs : s.exclude p f = .ok (s', evs)) :
    Single s' := by
  obtain ⟨hpath, hlt⟩ := h.opened hp rfl
  have hfile : ∀ x : Proc, x.locks = true → ∃ f, x.file = some f := fun x hx => locks_file hx
  unfold World.exclude at hs
  split at hs
  · next hu =>
    cases hs
    have hnone := h.unlocked hfile hpath hu
    refine h.move ⟨?_, fun _ => hnone, fun _ q hne => ?_, by simp, by simp, by simp, fun _ q g _ => ?_, by simp⟩ (.inl hlt)
    · simp [Proc.file, hpath]
    · by_contra hq
      have hlocks := hnone q hne
      rw [excludes_locks (Bool.not_eq_false _ ▸ hq)] at hlocks
      cases hlocks
    · exact h.not_daemon (by rw [hp]; rfl) q g
  · cases hs
    exact h.move (fits_idle rfl) (.inr rfl)

theorem Single.created (h : Single s) : Single s.create.2 ∧ s.create.2.path = some s.create.1 ∧ s.create.2.procs = s.procs := by
  unfold World.create
  split
  · next f hf => exact ⟨h, hf, rfl⟩
  · next hnone =>
    have hfile : ∀ q f, ¬((s.proc q).file = some f ∨ s.proc q = .daemon f) := by
      intro q f hq
      rw [h.here q f hq] at hnone
      cases hnone
    refine ⟨⟨fun q f hq => absurd hq (hfile q f), fun f hf => ?_, h.alone, fun q f pid hq => ?_,
      fun q f hq => ?_, h.barred, h.whole⟩,
      rfl, rfl⟩
    · cases hf
      simp
    · exact absurd (.inl (by rw [show s.proc q = _ from hq]; rfl)) (hfile q f)
    · refine absurd ?_ (hfile q f)
      rcases hq with hq | hq
      · exact .inl (by rw [show s.proc q = _ from hq]; rfl)
      · exact .inr hq

theorem Single.unlinked (h : Single s) (hfile : ∀ q, (s.proc q).file = none) (hd : ∀ q f, s.proc q ≠ .daemon f) :
    Single ({ s with path := none } : World) := by
  refine ⟨fun q f hq => ?_, fun f hf => ?_, h.alone, h.noted, h.named, h.barred, h.whole⟩
  · rcases hq with hq | hq
    · have hnone := hfile q
      rw [show (s.proc q).file = some f from hq] at hnone
      cases hnone
    · exact absurd hq (hd q f)
  · cases hf

theorem Single.unique (h : Single s) {g : Nat} (hp : s.proc p = .daemon f) (hq : s.proc q = .daemon g) : p = q := by
  have hfg : f = g := Option.some.inj ((h.here p f (.inr hp)).symm.trans (h.here q g (.inr hq)))
  subst hfg
  exact Option.some.inj ((h.named p f (.inr hp)).symm.trans (h.named q f (.inr hq)))

/-- Behind `read_pid`, with no process of that pid. -/
theorem Single.no_daemon (h : Single s) (hp : s.proc p = .read f pid) (hdead : ¬ pid.any s.alive = true) (q g : Nat) :
    s.proc q ≠ .daemon g := by
  intro hq
  have hg : g = f := Option.some.inj ((h.here q g (.inr hq)).symm.trans (h.opened hp rfl).1)
  have hpid : pid = some q := (h.noted p f pid hp).symm.trans (hg ▸ h.named q g (.inr hq))
  apply hdead
  simp [hpid, World.alive, hq]

theorem Single.checked (h : Single s) (hp : s.proc p = .read f pid) (hdead : ¬ pid.any s.alive = true) :
    Single (s.move p (.checked f)) := by
  obtain ⟨hpath, hlt⟩ := h.opened hp rfl
  have hshared := h.shared (p := p) (by rw [hp]; rfl)
  have hnone := h.no_daemon hp hdead
  refine h.move ⟨?_, ?_, fun _ => hshared, ?_, ?_, ?_, fun _ q g _ => hnone q g, ?_⟩ (.inl hlt) <;>
    simp [Proc.file, Proc.excludes, hpath]

/-- A call of the process with the exclusive lock changes what is in the file. -/
theorem Single.rewritten (h : Single s) {y : Proc} (hp : s.proc p = y) (hy : y = .exclusive f ∨ y = .truncated f)
    (hx : x = .truncated f ∨ x = .written f ∧ pid = some p) : Single ((s.put f pid).move p x) := by
  obtain ⟨hfile, hexcl, hpassed, hopen⟩ : y.file = some f ∧ y.excludes = true ∧ y.passed = true ∧ ∀ g, y ≠ .written g := by
    rcases hy with rfl | rfl <;> exact ⟨rfl, rfl, rfl, by simp⟩
  obtain ⟨hpath, hlt⟩ := h.opened hp hfile
  subst hp
  have hput : Single (s.put f pid) := h.put hexcl hopen
  have hother := h.exclusive hexcl
  have hshared := h.shared (excludes_locks hexcl)
  have hnone := h.not_daemon hpassed
  have hpid : (s.put f pid).pid f = pid := pid_put (h.made f hpath)
  refine hput.move ⟨?_, fun _ => hother, fun _ => hshared, ?_, ?_, ?_, fun _ q g _ => hnone q g, ?_⟩ (.inl hlt) <;>
    rcases hx with rfl | ⟨rfl, rfl⟩ <;> simp [Proc.file, World.put, hpath]
  exact hpid

theorem Single.closed (h : Single s) (hp : s.proc p = .written f) : Single (s.move p (.daemon f)) := by
  obtain ⟨hpath, hlt⟩ := h.opened hp rfl
  have hpid : s.pid f = some p := h.named p f (.inl hp)
  have hother := h.exclusive (p := p) (by rw [hp]; rfl)
  have hbarred : ∀ q, q ≠ p → (s.proc q).passed = false := by
    intro q hne
    by_contra hq
    have hlocks := hother q hne
    generalize hy : s.proc q = y at hq hlocks
    cases y <;> first | exact hq rfl | exact absurd hy (h.whole q _) | cases hlocks
  refine h.move ⟨?_, ?_, ?_, ?_, ?_, fun _ _ => hbarred, ?_, ?_⟩ (.inl hlt) <;>
    simp [Proc.file, Proc.excludes, Proc.locks, Proc.passed, hpath, hpid]

theorem Single.cleaned (h : Single s) (hp : s.proc p = .daemon f) (hfile : ∀ q < s.procs.length, (s.proc q).file = none) :
    Single (({ s with path := none } : World).move p .leaving) := by
  have hlt : p < s.procs.length := proc_lt (by simp [hp])
  have hproc := @proc_move s p .leaving (.inl hlt)
  have hleft : Single (s.move p .leaving) := h.move (fits_idle rfl) (.inl hlt)
  refine hleft.unlinked (fun q => ?_) fun q g hq => ?_
  · rw [hproc]
    split
    · rfl
    · by_cases hq : q < s.procs.length
      · exact hfile q hq
      · rw [show s.proc q = .absent from by_contra fun hne => hq (proc_lt hne)]
        rfl
  · rw [hproc] at hq
    split at hq
    · cases hq
    · next hne => exact hne (h.unique hq hp)

theorem Single.stepped (h : Single s) {a : Act} {evs : List Ev} (hc : Calm s a) (hs : step s a = .ok (s', evs)) : Single s' := by
  cases a with
  | spawn p =>
    simp only [step] at hs
    split at hs
    · next hp =>
      cases hs
      exact h.move (fits_idle rfl) (.inl hp.1)
    · cases hs
  | start p =>
    simp only [step] at hs
    split at hs
    · next hp =>
      cases hs
      exact h.move (fits_idle rfl) (.inl hp.1)
    · cases hs
  | openFile p =>
    simp only [step] at hs
    split at hs
    · next hp =>
      cases hs
      obtain ⟨hsingle, hpath, hprocs⟩ := h.created
      have hlt : p < s.create.2.procs.length := hprocs ▸ proc_lt (by simp [hp])
      refine hsingle.move ⟨?_, ?_, ?_, ?_, ?_, ?_, ?_, ?_⟩ (.inl hlt) <;>
        simp [Proc.file, Proc.excludes, Proc.locks, Proc.passed, hpath]
    · cases hs
  | lockShared p =>
    simp only [step] at hs
    split at hs
    · next f hp =>
      split at hs
      · next hu =>
        cases hs
        obtain ⟨hpath, hlt⟩ := h.opened hp rfl
        exact h.sharing hlt hpath (h.unlocked (fun x hx => locks_file (excludes_locks hx)) hpath hu) (.inl rfl)
      · cases hs
    · cases hs
  | readPid p =>
    simp only [step] at hs
    split at hs
    · next f hp =>
      cases hs
      obtain ⟨hpath, hlt⟩ := h.opened hp rfl
      exact h.sharing hlt hpath (h.shared (by rw [hp]; rfl)) (.inr (.inr rfl))
    · cases hs
  | check p =>
    simp only [step] at hs
    split at hs
    · next f pid hp =>
      split at hs
      · cases hs
        exact h.move (fits_idle rfl) (.inr rfl)
      · next hdead =>
        cases hs
        exact h.checked hp hdead
    · cases hs
  | convert p =>
    simp only [step] at hs
    split at hs
    · next f hp => exact h.excluded hp hs
    · cases hs
  | release p => exact absurd hc.1 id
  | acquire p =>
    simp only [step] at hs
    split at hs
    · next f hp => exact absurd hp (h.whole p f)
    · cases hs
  | truncate p =>
    simp only [step] at hs
    split at hs
    · next f hp =>
      cases hs
      exact h.rewritten hp (.inl rfl) (.inl rfl)
    · cases hs
  | writePid p =>
    simp only [step] at hs
    split at hs
    · next f hp =>
      cases hs
      exact h.rewritten hp (.inr rfl) (.inr ⟨rfl, rfl⟩)
    · cases hs
  | closeFile p =>
    simp only [step] at hs
    split at hs
    · next f hp =>
      cases hs
      exact h.closed hp
    · cases hs
  | cleanup p =>
    simp only [step] at hs
    split at hs
    · next f hp =>
      cases hs
      exact h.cleaned hp hc.2
    · cases hs
  | killOpen p =>
    simp only [step] at hs
    split at hs
    · next f hpath =>
      split at hs
      · next hp =>
        cases hs
        refine h.move ⟨?_, ?_, ?_, ?_, ?_, ?_, ?_, ?_⟩ (.inl hp.1) <;>
          simp [Proc.file, Proc.excludes, Proc.locks, Proc.passed, hpath]
      · cases hs
    · cases hs
  | killLock p =>
    simp only [step] at hs
    split at hs
    · next f hp =>
      split at hs
      · next hu =>
        cases hs
        obtain ⟨hpath, hlt⟩ := h.opened hp rfl
        exact h.sharing hlt hpath (h.unlocked (fun x hx => locks_file (excludes_locks hx)) hpath hu) (.inr (.inl rfl))
      · cases hs
    · cases hs
  | killRead p =>
    simp only [step] at hs
    split at hs
    · next f hp =>
      cases hs
      exact h.move (fits_idle rfl) (.inl (h.opened hp rfl).2)
    · cases hs
  | killSignal p =>
    simp only [step] at hs
    split at hs
    · cases hs
      exact h.move (fits_idle rfl) (.inr rfl)
    · cases hs
  | die p =>
    cases hs
    exact h.move (fits_idle rfl) (.inr rfl)

/-! ## Runs -/

variable {s0 : World} {acts : List Act} {tr : List Ev}

structure OneDaemon (s : World) : Prop where
  unique : ∀ p q f g, s.proc p = .daemon f → s.proc q = .daemon g → p = q
  /-- Its pid is in the file at the path. -/
  named : ∀ p f, s.proc p = .daemon f → s.path = some f ∧ s.pid f = some p
  /-- It is the one `kill_daemon` finds. -/
  found : ∀ k p f s' evs, s.proc p = .daemon f → step s (.killRead k) = .ok (s', evs) → s'.proc k = .killing (some p)

theorem Single.oneDaemon (h : Single s) : OneDaemon s := by
  refine ⟨fun p q f g hp hq => h.unique hp hq, fun p f hp => ⟨h.here p f (.inr hp), h.named p f (.inr hp)⟩, ?_⟩
  intro k p f s' evs hp hs
  simp only [step] at hs
  split at hs
  · next g hk =>
    obtain ⟨hpath, hlt⟩ := h.opened hk rfl
    have hg : g = f := Option.some.inj (hpath.symm.trans (h.here p f (.inr hp)))
    cases hs
    rw [proc_move (.inl hlt), if_pos rfl, hg, h.named p f (.inr hp)]
  · cases hs

theorem World.Fresh.single (h : s.Fresh) : Single s := by
  obtain ⟨hproc, hmade⟩ := h
  have hfile : ∀ p, (s.proc p).file = none ∧ (s.proc p).excludes = false ∧ (s.proc p).passed = false := by
    intro p
    rcases hproc p with h | h <;> rw [h] <;> exact ⟨rfl, rfl, rfl⟩
  have hstate : ∀ p x, s.proc p = x → x = .absent ∨ x = .other := fun p x hx => hx ▸ hproc p
  refine ⟨fun p f hp => ?_, hmade, fun p q hp => ?_, fun p f pid hp => ?_, fun p f hp => ?_,
    fun p q f _ => (hfile q).2.2, fun p f hp => ?_⟩
  · rcases hp with hp | hp
    · rw [(hfile p).1] at hp
      cases hp
    · simpa using hstate p _ hp
  · rw [(hfile p).2.1] at hp
    cases hp
  · simpa using hstate p _ hp
  · rcases hp with hp | hp <;> simpa using hstate p _ hp
  · simpa using hstate p _ hp

/-- In every interleaving, whatever pid an old file holds and whoever dies when. -/
theorem calm_oneDaemon (h0 : s0.Fresh) (h : Machine.Run step Calm s0 acts s tr) : OneDaemon s := by
  have hsteps := h.events Single (fun _ => True) h0.single fun s a s' e hi hc hs => ⟨hi.stepped hc hs, fun _ _ => trivial⟩
  exact hsteps.1.oneDaemon

instance : (a : Act) → Decidable (Whole a)
  | .release _ => inferInstanceAs (Decidable False)
  | .spawn _ | .start _ | .openFile _ | .lockShared _ | .readPid _ | .check _ | .convert _
    | .acquire _ | .truncate _ | .writePid _
  | .closeFile _ | .cleanup _ | .killOpen _ | .killLock _ | .killRead _ | .killSignal _
    | .die _ => inferInstanceAs (Decidable True)

instance (s : World) : (a : Act) → Decidable (Undisturbed s a)
  | .cleanup _ => inferInstanceAs (Decidable (∀ q < s.procs.length, _))
  | .spawn _ | .start _ | .openFile _ | .lockShared _ | .readPid _ | .check _ | .convert _ | .release _ | .acquire _ | .truncate _
  | .writePid _ | .closeFile _ | .killOpen _ | .killLock _ | .killRead _ | .killSignal _
    | .die _ => inferInstanceAs (Decidable True)

instance (s : World) (a : Act) : Decidable (Calm s a) := inferInstanceAs (Decidable (_ ∧ _))

/-- The calls of a start up to the check. -/
def checking (p : Nat) : List Act := [.start p, .openFile p, .lockShared p, .readPid p, .check p]

/-- Those behind the conversion. -/
def writing (p : Nat) : List Act := [.truncate p, .writePid p, .closeFile p]

/-- An old file, with a pid that is in use no more, and a process of another program. -/
def oldFile : World := ⟨some 0, [some 3], [.absent, .absent, .other, .absent]⟩

theorem oldFile_fresh : oldFile.Fresh := by
  constructor
  · intro p
    rcases p with _ | _ | _ | _ | p
    · exact .inl rfl
    · exact .inl rfl
    · exact .inr rfl
    · exact .inl rfl
    · exact .inl rfl
  · intro f hf
    cases hf
    decide

/-- Both have given the shared lock back when the first gets the exclusive one. -/
theorem split_conversion_breaks : ∃ acts s tr, Machine.Run step Undisturbed oldFile acts s tr ∧ ¬ OneDaemon s := by
  obtain ⟨s, tr, hrun, hq⟩ := Machine.exists_run step Undisturbed oldFile
    (checking 0 ++ checking 1 ++ [.release 0, .release 1, .acquire 0] ++ writing 0 ++ [.acquire 1] ++ writing 1)
    (fun r => decide (r.1.proc 0 = .daemon 0 ∧ r.1.proc 1 = .daemon 0)) (by decide +kernel)
  obtain ⟨h0, h1⟩ := of_decide_eq_true hq
  exact ⟨_, s, tr, hrun, fun h => absurd (h.unique 0 1 0 0 h0 h1) (by decide)⟩

/-- A start has the file open that the daemon unlinks at its end, and the next one creates
    another. -/
theorem unlink_breaks : ∃ acts s tr, Machine.Run step (fun _ a => Whole a) oldFile acts s tr ∧ ¬ OneDaemon s := by
  obtain ⟨s, tr, hrun, hq⟩ := Machine.exists_run step (fun _ a => Whole a) oldFile
    (checking 0 ++ [.convert 0] ++ writing 0 ++ [.start 1, .openFile 1, .cleanup 0, .die 0, .lockShared 1, .readPid 1, .check 1,
      .convert 1] ++ writing 1 ++ checking 0 ++ [.convert 0] ++ writing 0)
    (fun r => decide (r.1.proc 1 = .daemon 0 ∧ r.1.proc 0 = .daemon 1)) (by decide +kernel)
  obtain ⟨h0, h1⟩ := of_decide_eq_true hq
  exact ⟨_, s, tr, hrun, fun h => absurd (h.unique 1 0 0 1 h0 h1) (by decide)⟩

end WfbYa.Daemon
