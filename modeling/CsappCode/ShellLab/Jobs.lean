import Mathlib.Data.Fin.Basic
import Mathlib.Data.List.FinRange
import Mathlib.Data.List.Induction
import Mathlib.Data.List.Nodup
import Mathlib.Data.Int.Notation
import Mathlib.Logic.Function.Basic

/-!
# The job list of the shell

`tsh.c` keeps its jobs in an array and numbers them with `nextjid`. `addjob` takes the next number
and starts again at 1 behind `MAXJOBS`; `deletejob` goes back to the number behind the largest in
use.

* `listed_of_distinct` says what holds in all runs: the slots in use hold different processes, all
  of them added by some call.
* `jobs_identified_iff` says in which runs the numbers identify the jobs.
* `wrapped_not_identified` is a run in which two jobs have the number 1.

## The argument

Two invariants are kept call by call. `Listed` does not speak of the numbers, and holds whatever
they are. On top of it the numbers are different as long as no call gives out one that is in use
(`apart_step_iff`), and when they are different the searches by number and by process undo each
other. A call that gives out a number in use is seen at once: the slot it fills and the slot that
has the number are two.

## What the results rest on

**Calls** are `addjob` and `deletejob` in any order, from the list that `initjobs` leaves. A process
is added by one call at most, and with a positive pid (`Distinct`), as `fork` gives them out.
`deletejob` may be called for any number. The job `addjob` finds no room for is not added, and the
message that says so changes nothing.

**The numbers** are unbounded integers here. `bounded_of_distinct` says that none is larger than the
number of processes added, so they are within `int` as long as that is.
-/

namespace CsappCode.ShellLab

/-! ### The functions -/

/-- `MAXJOBS`. -/
def maxJobs : ℕ := 16

/-- The states of a job. -/
inductive JobState where
  | undef
  | fg
  | bg
  | st
  deriving DecidableEq, Repr

/-- `struct job_t`. -/
structure Job where
  pid : ℤ
  jid : ℤ
  state : JobState
  cmdline : List UInt8
  deriving DecidableEq, Repr

/-- The array `jobs`. -/
abbrev Jobs := Fin maxJobs → Job

/-- What `clearjob(job)` leaves. -/
def clearjob : Job := ⟨0, 0, .undef, []⟩

/-- `initjobs(jobs)`. -/
def initjobs : Jobs := fun _ ↦ clearjob

/-- `maxjid(jobs)`. -/
def maxjid (jobs : Jobs) : ℤ :=
  (List.finRange maxJobs).foldl (fun max i ↦ if max < (jobs i).jid then (jobs i).jid else max) 0

/-- The first slot with the pid. -/
def findPid (jobs : Jobs) (pid : ℤ) : Option (Fin maxJobs) :=
  (List.finRange maxJobs).find? fun i ↦ (jobs i).pid = pid

/-- `jobs` and `nextjid`. -/
structure Shell where
  jobs : Jobs
  nextjid : ℤ

/-- The shell when its loop begins. -/
def initialShell : Shell := ⟨initjobs, 1⟩

/-- `addjob(jobs, pid, state, cmdline)`. -/
def addjob (s : Shell) (pid : ℤ) (state : JobState) (cmdline : List UInt8) : Bool × Shell :=
  if pid < 1 then (false, s)
  else match findPid s.jobs 0 with
    | none => (false, s)
    | some i =>
      (true, {
        jobs := Function.update s.jobs i ⟨pid, s.nextjid, state, cmdline⟩
        nextjid := if maxJobs < s.nextjid + 1 then 1 else s.nextjid + 1 })

/-- `deletejob(jobs, pid)`. -/
def deletejob (s : Shell) (pid : ℤ) : Bool × Shell :=
  if pid < 1 then (false, s)
  else match findPid s.jobs pid with
    | none => (false, s)
    | some i =>
      let jobs := Function.update s.jobs i clearjob
      (true, ⟨jobs, maxjid jobs + 1⟩)

/-- `getjobjid(jobs, jid)`: the slot, or none for `NULL`. -/
def getjobjid (jobs : Jobs) (jid : ℤ) : Option (Fin maxJobs) :=
  if jid < 1 then none else (List.finRange maxJobs).find? fun i ↦ (jobs i).jid = jid

/-- `pid2jid(pid)`. -/
def pid2jid (jobs : Jobs) (pid : ℤ) : ℤ :=
  if pid < 1 then 0 else (findPid jobs pid).elim 0 fun i ↦ (jobs i).jid

/-! ### Runs -/

inductive Call where
  | addjob (pid : ℤ) (state : JobState) (cmdline : List UInt8)
  | deletejob (pid : ℤ)

/-- The shell after a call. -/
def Call.step (s : Shell) : Call → Shell
  | .addjob pid state cmdline => (ShellLab.addjob s pid state cmdline).2
  | .deletejob pid => (ShellLab.deletejob s pid).2

/-- The shell after some calls. -/
def run (calls : List Call) : Shell := calls.foldl Call.step initialShell

theorem run_concat (calls : List Call) (c : Call) : run (calls ++ [c]) = c.step (run calls) := by
  rw [run, run, List.foldl_append, List.foldl_cons, List.foldl_nil]

/-- The process that `addjob` is called for. -/
def Call.added : Call → Option ℤ
  | .addjob pid _ _ => some pid
  | .deletejob _ => none

/-- The processes added, each by one call, and with a pid that a process can have. -/
structure Distinct (calls : List Call) : Prop where
  nodup : (calls.filterMap Call.added).Nodup
  positive : ∀ pid ∈ calls.filterMap Call.added, 1 ≤ pid

theorem Distinct.of_concat {calls : List Call} {c : Call} (h : Distinct (calls ++ [c])) :
    Distinct calls where
  nodup := by
    have hnodup := h.nodup
    rw [List.filterMap_append] at hnodup
    exact hnodup.of_append_left
  positive pid hpid := by
    refine h.positive pid ?_
    rw [List.filterMap_append]
    exact List.mem_append_left _ hpid

/-- The process of the last call has not been added before. -/
theorem Distinct.new {calls : List Call} {pid : ℤ} {state : JobState} {cmdline : List UInt8}
    (h : Distinct (calls ++ [.addjob pid state cmdline])) :
    1 ≤ pid ∧ pid ∉ calls.filterMap Call.added := by
  obtain ⟨hnodup, hpositive⟩ := h
  rw [List.filterMap_append] at hnodup hpositive
  refine ⟨hpositive pid (List.mem_append_right _ (List.mem_singleton_self pid)), fun hmem ↦ ?_⟩
  exact List.disjoint_of_nodup_append hnodup hmem (List.mem_singleton_self pid)

/-! ### What the calls can do -/

section Cases

variable {jobs : Jobs} {pid : ℤ} {i : Fin maxJobs}

theorem pid_of_findPid (h : findPid jobs pid = some i) : (jobs i).pid = pid := by
  simpa using List.find?_some h

theorem pid_ne_of_findPid (h : findPid jobs pid = none) (i : Fin maxJobs) : (jobs i).pid ≠ pid := by
  simpa using List.find?_eq_none.1 h i (List.mem_finRange i)

/-- The search finds the only one there is. -/
theorem find?_finRange_eq_some {p : Fin maxJobs → Bool} (hi : p i = true)
    (hunique : ∀ j, p j = true → j = i) : (List.finRange maxJobs).find? p = some i := by
  rcases hfind : (List.finRange maxJobs).find? p with - | j
  · exact absurd hi (List.find?_eq_none.1 hfind i (List.mem_finRange i))
  · rw [hunique j (List.find?_some hfind)]

/-- What `addjob` can do: nothing, or register the job in a free slot. -/
theorem addjob_cases (s : Shell) (hpid : 1 ≤ pid) (state : JobState) (cmdline : List UInt8) :
    ((∀ i, (s.jobs i).pid ≠ 0) ∧ addjob s pid state cmdline = (false, s)) ∨
    ∃ i, (s.jobs i).pid = 0 ∧ addjob s pid state cmdline = (true, {
      jobs := Function.update s.jobs i ⟨pid, s.nextjid, state, cmdline⟩
      nextjid := if maxJobs < s.nextjid + 1 then 1 else s.nextjid + 1 }) := by
  rw [addjob, if_neg (by omega)]
  rcases hslot : findPid s.jobs 0 with - | i
  · exact .inl ⟨pid_ne_of_findPid hslot, rfl⟩
  · exact .inr ⟨i, pid_of_findPid hslot, rfl⟩

/-- What `deletejob` can do: nothing, or clear the slot of the job. -/
theorem deletejob_cases (s : Shell) (pid : ℤ) : deletejob s pid = (false, s) ∨
    ∃ i, (s.jobs i).pid ≠ 0 ∧ deletejob s pid = (true, {
      jobs := Function.update s.jobs i clearjob
      nextjid := maxjid (Function.update s.jobs i clearjob) + 1 }) := by
  rw [deletejob]
  split_ifs with hpid
  · exact .inl rfl
  rcases hslot : findPid s.jobs pid with - | i
  · exact .inl rfl
  · have hfound := pid_of_findPid hslot
    exact .inr ⟨i, by omega, rfl⟩

theorem le_foldl_max (f : Fin maxJobs → ℤ) (l : List (Fin maxJobs)) : ∀ a : ℤ,
    a ≤ l.foldl (fun max i ↦ if max < f i then f i else max) a ∧
      ∀ i ∈ l, f i ≤ l.foldl (fun max i ↦ if max < f i then f i else max) a := by
  induction l with
  | nil => exact fun a ↦ ⟨le_rfl, fun _ hi ↦ absurd hi List.not_mem_nil⟩
  | cons i l ih =>
    intro a
    obtain ⟨hle, hall⟩ := ih (if a < f i then f i else a)
    rw [List.foldl_cons]
    have hboth : a ≤ (if a < f i then f i else a) ∧ f i ≤ (if a < f i then f i else a) := by
      split_ifs <;> omega
    refine ⟨hboth.1.trans hle, fun j hj ↦ ?_⟩
    rcases List.mem_cons.1 hj with rfl | hj
    · exact hboth.2.trans hle
    · exact hall j hj

/-- **`maxjid` is the largest number**, and not negative. -/
theorem jid_le_maxjid (jobs : Jobs) (i : Fin maxJobs) : (jobs i).jid ≤ maxjid jobs :=
  (le_foldl_max _ _ 0).2 i (List.mem_finRange i)

theorem maxjid_nonneg (jobs : Jobs) : 0 ≤ maxjid jobs := (le_foldl_max _ _ 0).1

/-- It is the number of some slot, or 0. -/
theorem maxjid_le {n : ℤ} (hn : 0 ≤ n) (hle : ∀ i, (jobs i).jid ≤ n) : maxjid jobs ≤ n := by
  rw [maxjid]
  generalize List.finRange maxJobs = l
  generalize (0 : ℤ) = a at hn ⊢
  induction l generalizing a with
  | nil => exact hn
  | cons i l ih =>
    rw [List.foldl_cons]
    refine ih _ ?_
    split_ifs
    · exact hle i
    · exact hn

end Cases

/-! ### What holds in all runs -/

/-- The list of jobs, after processes have been added. Slots that are free have no number; the
others hold different processes of those added, with positive numbers. -/
structure Listed (pids : List ℤ) (s : Shell) : Prop where
  cleared : ∀ i, (s.jobs i).pid = 0 → (s.jobs i).jid = 0
  added : ∀ i, (s.jobs i).pid ≠ 0 → (s.jobs i).pid ∈ pids
  pids : ∀ i j, (s.jobs i).pid ≠ 0 → (s.jobs i).pid = (s.jobs j).pid → i = j
  positive : ∀ i, (s.jobs i).pid ≠ 0 → 1 ≤ (s.jobs i).jid
  nextjid : 1 ≤ s.nextjid

section Listed

variable {s s' : Shell} {pids : List ℤ} {i : Fin maxJobs}

theorem Listed.mono {pids' : List ℤ} (h : Listed pids s) (hle : ∀ pid ∈ pids, pid ∈ pids') :
    Listed pids' s :=
  { h with added := fun i hi ↦ hle _ (h.added i hi) }

/-- A slot after one of them has been rewritten. -/
theorem jobs_cases {job : Job} (hjobs : s'.jobs = Function.update s.jobs i job) (j : Fin maxJobs) :
    (j = i ∧ s'.jobs j = job) ∨ (j ≠ i ∧ s'.jobs j = s.jobs j) := by
  rw [hjobs]
  rcases eq_or_ne j i with rfl | hne
  · exact .inl ⟨rfl, Function.update_self ..⟩
  · exact .inr ⟨hne, Function.update_of_ne hne ..⟩

/-- What holds of the new job and of the old slots holds of all slots. -/
theorem forall_jobs_update {job : Job} {P : Job → Prop}
    (hjobs : s'.jobs = Function.update s.jobs i job) (hjob : P job) (h : ∀ j, P (s.jobs j))
    (j : Fin maxJobs) : P (s'.jobs j) := by
  obtain ⟨-, hself⟩ | ⟨-, hsame⟩ := jobs_cases hjobs j
  · rwa [hself]
  · rw [hsame]
    exact h j

theorem Listed.add {job : Job} (h : Listed pids s) (hpid : 1 ≤ job.pid) (hnew : job.pid ∉ pids)
    (hjid : 1 ≤ job.jid) (hjobs : s'.jobs = Function.update s.jobs i job) (hnext : 1 ≤ s'.nextjid) :
    Listed (pids ++ [job.pid]) s' := by
  have hother : ∀ j, job.pid ≠ (s.jobs j).pid := fun j heq ↦
    hnew (heq ▸ h.added j (by omega))
  have hself : job.pid ∈ pids ++ [job.pid] :=
    List.mem_append_right _ (List.mem_singleton_self _)
  refine ⟨?_, ?_, fun j k hj heq ↦ ?_, ?_, hnext⟩
  · exact forall_jobs_update (P := fun job ↦ job.pid = 0 → job.jid = 0) hjobs
      (fun hfree ↦ by omega) h.cleared
  · exact forall_jobs_update (P := fun job' ↦ job'.pid ≠ 0 → job'.pid ∈ pids ++ [job.pid]) hjobs
      (fun _ ↦ hself) fun j hj ↦ List.mem_append_left _ (h.added j hj)
  · obtain ⟨hji, hself⟩ | ⟨-, hsame⟩ := jobs_cases hjobs j <;>
      obtain ⟨hki, hself'⟩ | ⟨-, hsame'⟩ := jobs_cases hjobs k
    · exact hji.trans hki.symm
    · rw [hself, hsame'] at heq
      exact absurd heq (hother k)
    · rw [hsame, hself'] at heq
      exact absurd heq.symm (hother j)
    · rw [hsame] at hj
      rw [hsame, hsame'] at heq
      exact h.pids j k hj heq
  · exact forall_jobs_update (P := fun job ↦ job.pid ≠ 0 → 1 ≤ job.jid) hjobs (fun _ ↦ hjid)
      h.positive

/-- The slots still in use when one has been cleared. -/
theorem eq_of_clear (hjobs : s'.jobs = Function.update s.jobs i clearjob) {j : Fin maxJobs}
    (hj : (s'.jobs j).pid ≠ 0) : s'.jobs j = s.jobs j := by
  obtain ⟨-, hself⟩ | ⟨-, hsame⟩ := jobs_cases hjobs j
  · rw [hself] at hj
    exact absurd rfl hj
  · exact hsame

theorem Listed.clear (h : Listed pids s) (hjobs : s'.jobs = Function.update s.jobs i clearjob)
    (hnext : 1 ≤ s'.nextjid) : Listed pids s' := by
  refine ⟨?_, ?_, fun j k hj heq ↦ ?_, ?_, hnext⟩
  · exact forall_jobs_update (P := fun job ↦ job.pid = 0 → job.jid = 0) hjobs (fun _ ↦ rfl)
      h.cleared
  · exact forall_jobs_update (P := fun job ↦ job.pid ≠ 0 → job.pid ∈ pids) hjobs
      (fun hpid ↦ absurd rfl hpid) h.added
  · have hsame := eq_of_clear hjobs hj
    have hsame' := eq_of_clear hjobs (j := k) (heq ▸ hj)
    rw [hsame] at hj
    rw [hsame, hsame'] at heq
    exact h.pids j k hj heq
  · exact forall_jobs_update (P := fun job ↦ job.pid ≠ 0 → 1 ≤ job.jid) hjobs
      (fun hpid ↦ absurd rfl hpid) h.positive

end Listed

/-- **In all runs** the list holds the processes added, in different slots. -/
theorem listed_of_distinct (calls : List Call) (h : Distinct calls) :
    Listed (calls.filterMap Call.added) (run calls) := by
  induction calls using List.reverseRecOn with
  | nil => exact ⟨fun _ _ ↦ rfl, fun _ hi ↦ absurd rfl hi, fun _ _ hi ↦ absurd rfl hi,
      fun _ hi ↦ absurd rfl hi, le_rfl⟩
  | append_singleton calls c ih =>
    have hlisted := ih h.of_concat
    have hmono : ∀ pid ∈ calls.filterMap Call.added,
        pid ∈ (calls ++ [c]).filterMap Call.added := fun pid hpid ↦ by
      rw [List.filterMap_append]
      exact List.mem_append_left _ hpid
    rw [run_concat]
    cases c with
    | addjob pid state cmdline =>
      obtain ⟨hpos, hnew⟩ := h.new
      rw [Call.step]
      obtain ⟨-, hadd⟩ | ⟨i, -, hadd⟩ := addjob_cases (run calls) hpos state cmdline
      · rw [hadd]
        exact hlisted.mono hmono
      · have hnext := hlisted.nextjid
        rw [hadd, List.filterMap_append]
        have hnext' : (1 : ℤ) ≤
            if maxJobs < (run calls).nextjid + 1 then 1 else (run calls).nextjid + 1 := by
          split_ifs <;> omega
        exact @Listed.add _ _ _ _ ⟨pid, (run calls).nextjid, state, cmdline⟩ hlisted hpos hnew hnext
          rfl hnext'
    | deletejob pid =>
      rw [Call.step]
      obtain hdelete | ⟨i, -, hdelete⟩ := deletejob_cases (run calls) pid
      · rw [hdelete]
        exact hlisted.mono hmono
      · rw [hdelete]
        have hmax := maxjid_nonneg (Function.update (run calls).jobs i clearjob)
        exact (hlisted.clear rfl (show 1 ≤ maxjid _ + 1 by omega)).mono hmono

/-- The numbers up to the calls so far. -/
structure Bounded (n : ℕ) (s : Shell) : Prop where
  jid : ∀ i, (s.jobs i).jid ≤ n
  nextjid : s.nextjid ≤ n + 1

section Bounded

variable {s s' : Shell} {i : Fin maxJobs} {n : ℕ}

theorem Bounded.mono {m : ℕ} (h : Bounded n s) (hle : n ≤ m) : Bounded m s where
  jid j := (h.jid j).trans (Int.ofNat_le.2 hle)
  nextjid := h.nextjid.trans (Int.add_le_add_right (Int.ofNat_le.2 hle) 1)

theorem Bounded.add {job : Job} (h : Bounded n s) (hjobs : s'.jobs = Function.update s.jobs i job)
    (hjid : job.jid = s.nextjid) (hnext : s'.nextjid ≤ max 1 (s.nextjid + 1)) :
    Bounded (n + 1) s' := by
  have hle := h.nextjid
  refine ⟨?_, by push_cast; omega⟩
  refine forall_jobs_update (P := fun job ↦ job.jid ≤ ((n + 1 : ℕ) : ℤ)) hjobs ?_ fun j ↦ ?_
  · push_cast
    omega
  · have hj := h.jid j
    push_cast
    omega

theorem Bounded.clear (h : Bounded n s) (hjobs : s'.jobs = Function.update s.jobs i clearjob)
    (hnext : s'.nextjid = maxjid s'.jobs + 1) : Bounded n s' := by
  have hjid : ∀ j, (s'.jobs j).jid ≤ n :=
    forall_jobs_update (P := fun job ↦ job.jid ≤ n) hjobs (Int.natCast_nonneg n) h.jid
  have hmax := maxjid_le (Int.natCast_nonneg n) hjid
  exact ⟨hjid, by omega⟩

end Bounded

/-- **No number exceeds the number of processes added.** -/
theorem bounded_of_distinct (calls : List Call) (h : Distinct calls) :
    Bounded (calls.filterMap Call.added).length (run calls) := by
  induction calls using List.reverseRecOn with
  | nil => exact ⟨fun _ ↦ le_rfl, le_rfl⟩
  | append_singleton calls c ih =>
    have hbounded := ih h.of_concat
    rw [run_concat, List.filterMap_append, List.length_append]
    cases c with
    | addjob pid state cmdline =>
      rw [Call.step]
      obtain ⟨-, hadd⟩ | ⟨i, -, hadd⟩ := addjob_cases (run calls) h.new.1 state cmdline
      · rw [hadd]
        exact hbounded.mono (Nat.le_add_right _ _)
      · rw [hadd]
        refine @Bounded.add _ _ i _ ⟨_, _, _, _⟩ hbounded rfl rfl ?_
        split_ifs
        · exact le_max_left _ _
        · exact le_max_right _ _
    | deletejob pid =>
      rw [Call.step]
      obtain hdelete | ⟨i, -, hdelete⟩ := deletejob_cases (run calls) pid
      · rw [hdelete]
        exact hbounded
      · rw [hdelete]
        exact hbounded.clear rfl rfl

/-! ### When the numbers identify the jobs -/

/-- The jobs on the list have different numbers. -/
def Apart (jobs : Jobs) : Prop :=
  ∀ i j, (jobs i).pid ≠ 0 → (jobs j).pid ≠ 0 → (jobs i).jid = (jobs j).jid → i = j

/-- **The numbers identify the jobs**: those in use are different and positive, and the two searches
are inverse to each other. -/
structure Identified (jobs : Jobs) : Prop where
  apart : Apart jobs
  positive : ∀ i, (jobs i).pid ≠ 0 → 1 ≤ (jobs i).jid
  inverse : ∀ i, (jobs i).pid ≠ 0 → getjobjid jobs (jobs i).jid = some i ∧
    pid2jid jobs (jobs i).pid = (jobs i).jid

section Apart

variable {s s' : Shell} {pids : List ℤ} {i : Fin maxJobs}

/-- Different numbers are all it takes. -/
theorem identified_iff_apart (h : Listed pids s) (hpids : ∀ pid ∈ pids, 1 ≤ pid) :
    Identified s.jobs ↔ Apart s.jobs := by
  refine ⟨Identified.apart, fun hapart ↦ ⟨hapart, h.positive, fun i hi ↦ ⟨?_, ?_⟩⟩⟩
  · have hjid := h.positive i hi
    rw [getjobjid, if_neg (by omega)]
    refine find?_finRange_eq_some (by simp) fun j hj ↦ ?_
    have hj' : (s.jobs j).jid = (s.jobs i).jid := by simpa using hj
    refine hapart j i (fun hfree ↦ ?_) hi hj'
    have := h.cleared j hfree
    omega
  · have hpid := hpids _ (h.added i hi)
    have hfind : findPid s.jobs (s.jobs i).pid = some i := by
      refine find?_finRange_eq_some (by simp) fun j hj ↦ ?_
      have hj' : (s.jobs j).pid = (s.jobs i).pid := by simpa using hj
      exact (h.pids i j hi hj'.symm).symm
    rw [pid2jid, if_neg (by omega), hfind]
    rfl

/-- A job added in a free slot. -/
theorem apart_add_iff {job : Job} (hapart : Apart s.jobs) (hfree : (s.jobs i).pid = 0)
    (hpid : 1 ≤ job.pid) (hjobs : s'.jobs = Function.update s.jobs i job) :
    Apart s'.jobs ↔ ∀ j, (s.jobs j).pid ≠ 0 → (s.jobs j).jid ≠ job.jid := by
  constructor
  · intro hapart' j hj heq
    have hne : j ≠ i := fun hji ↦ hj (hji ▸ hfree)
    have hsame := ((jobs_cases hjobs j).resolve_left fun hji ↦ hne hji.1).2
    have hself : s'.jobs i = job := by rw [hjobs, Function.update_self]
    refine hne (hapart' j i ?_ ?_ ?_)
    · rw [hsame]
      exact hj
    · rw [hself]
      omega
    · rw [hsame, hself]
      exact heq
  · intro hnew j k hj hk heq
    obtain ⟨hji, hj'⟩ | ⟨-, hj'⟩ := jobs_cases hjobs j <;>
      obtain ⟨hki, hk'⟩ | ⟨-, hk'⟩ := jobs_cases hjobs k
    · exact hji.trans hki.symm
    · rw [hj', hk'] at heq
      rw [hk'] at hk
      exact absurd heq.symm (hnew k hk)
    · rw [hj', hk'] at heq
      rw [hj'] at hj
      exact absurd heq (hnew j hj)
    · rw [hj', hk'] at heq
      rw [hj'] at hj
      rw [hk'] at hk
      exact hapart j k hj hk heq

theorem Apart.clear (hapart : Apart s.jobs)
    (hjobs : s'.jobs = Function.update s.jobs i clearjob) : Apart s'.jobs := by
  intro j k hj hk heq
  have hj' := eq_of_clear hjobs hj
  have hk' := eq_of_clear hjobs hk
  rw [hj', hk'] at heq
  rw [hj'] at hj
  rw [hk'] at hk
  exact hapart j k hj hk heq

end Apart

/-- A call that gives out no number in use: when `addjob` finds a free slot, no job on the list has
the number `nextjid`. -/
def Call.Fresh (s : Shell) : Call → Prop
  | .addjob _ _ _ => (∃ i, (s.jobs i).pid = 0) →
      ∀ i, (s.jobs i).pid ≠ 0 → (s.jobs i).jid ≠ s.nextjid
  | .deletejob _ => True

/-- **A call keeps the numbers apart just if the one it gives out is new.** -/
theorem apart_step_iff {calls : List Call} {c : Call} (h : Distinct (calls ++ [c]))
    (hapart : Apart (run calls).jobs) :
    Apart (run (calls ++ [c])).jobs ↔ c.Fresh (run calls) := by
  rw [run_concat]
  cases c with
  | addjob pid state cmdline =>
    have hpid := h.new.1
    rw [Call.step, Call.Fresh]
    obtain ⟨hfull, hadd⟩ | ⟨i, hfree, hadd⟩ := addjob_cases (run calls) hpid state cmdline
    · rw [hadd]
      exact iff_of_true hapart fun ⟨i, hi⟩ ↦ absurd hi (hfull i)
    · rw [hadd, forall_prop_of_true ⟨i, hfree⟩]
      exact @apart_add_iff (run calls) _ i ⟨pid, (run calls).nextjid, state, cmdline⟩ hapart hfree
        hpid rfl
  | deletejob pid =>
    rw [Call.step]
    refine iff_of_true ?_ trivial
    obtain hdelete | ⟨i, -, hdelete⟩ := deletejob_cases (run calls) pid
    · rw [hdelete]
      exact hapart
    · rw [hdelete]
      exact hapart.clear rfl

/-- **In which runs the numbers identify the jobs**, all the time: those in which no call gives out
a number in use. -/
theorem jobs_identified_iff {calls : List Call} (h : Distinct calls) :
    (∀ cs, cs <+: calls → Identified (run cs).jobs) ↔
      ∀ cs c, cs ++ [c] <+: calls → c.Fresh (run cs) := by
  have hdistinct : ∀ {cs}, cs <+: calls → Distinct cs := by
    rintro cs ⟨rest, rfl⟩
    induction rest using List.reverseRecOn with
    | nil => rwa [List.append_nil] at h
    | append_singleton rest c ih => exact ih (by rw [← List.append_assoc] at h; exact h.of_concat)
  have happart : ∀ {cs}, cs <+: calls → (Identified (run cs).jobs ↔ Apart (run cs).jobs) :=
    fun hcs ↦ identified_iff_apart (listed_of_distinct _ (hdistinct hcs)) (hdistinct hcs).positive
  constructor
  · intro hids cs c hcs
    have hbefore : cs <+: calls := (List.prefix_append _ _).trans hcs
    exact (apart_step_iff (hdistinct hcs) (hids cs hbefore).apart).1 (hids _ hcs).apart
  · intro hfresh cs hcs
    rw [happart hcs]
    induction cs using List.reverseRecOn with
    | nil => exact fun i _ hi ↦ absurd rfl hi
    | append_singleton cs c ih =>
      have hbefore : cs <+: calls := (List.prefix_append _ _).trans hcs
      exact (apart_step_iff (hdistinct hcs) (ih hbefore)).2 (hfresh cs c hcs)

/-- Two jobs, the first of which ends. -/
def twoJobs : List Call := [.addjob 1 .bg [], .addjob 2 .bg [], .deletejob 1]

theorem jobs_identified_two : Distinct twoJobs ∧
    ((∀ cs, cs <+: twoJobs → Identified (run cs).jobs) ↔
      ∀ (cs : List Call) (c : Call), cs ++ [c] <+: twoJobs → c.Fresh (run cs)) :=
  have hdistinct : Distinct twoJobs := ⟨by decide, by decide⟩
  ⟨hdistinct, jobs_identified_iff hdistinct⟩

/-- Job 2 ends while the jobs 1 and 3 run on, and then more jobs arrive than numbers are left. -/
def wrappingCalls : List Call :=
  [1, 2, 3].map (.addjob · .bg []) ++ .deletejob 2 ::
    [4, 5, 6, 7, 8, 9, 10, 11, 12, 13, 14, 15, 16, 17].map (.addjob · .bg [])

/-- **The last of these jobs gets the number 1**, which the first one still has. -/
theorem wrapped_not_identified : ¬ ∀ calls, Distinct calls →
    ∀ cs, cs <+: calls → Identified (run cs).jobs := by
  intro hall
  have hdistinct : Distinct wrappingCalls := ⟨by decide, by decide⟩
  have hapart := (hall wrappingCalls hdistinct wrappingCalls (List.prefix_refl _)).apart
  have hsame : (⟨0, by decide⟩ : Fin maxJobs) = ⟨15, by decide⟩ :=
    hapart _ _ (by decide +kernel) (by decide +kernel) (by decide +kernel)
  exact absurd hsame (by decide)

end CsappCode.ShellLab
