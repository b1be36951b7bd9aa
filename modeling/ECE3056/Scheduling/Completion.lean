import ECE3056.Scheduling.Exit
import ECE3056.Scheduling.Remaining

/-!
# Every fair run ends

Suppose that a fair run does not end. From some time on no tick runs, no I/O request
is served and no process is created. Then no CPU has a process that the simulator knows
of; a thread that takes one from the ready list would give it to the simulator, so none
is taken; and as no thread is blocked while something is queued, nothing is. So every
process has terminated, and the supervisor exits after all.
-/

namespace ECE3056.Scheduling

open ECE3056.Custody ECE3056.Fairness

variable {ncpu nproc : Nat} {cfg : Config} {r : Trace (@CalmStep ncpu nproc cfg)}
variable {n i : ℕ} {c : Fin ncpu} {p : Fin nproc}

/-- An endless run in which nothing happens any more from time `n` on. -/
structure Quiescent (cfg : Config) (r : Trace (@CalmStep ncpu nproc cfg)) (n : ℕ) : Prop
    extends Endless cfg r where
  ticks : ∀ i ≥ n, (r.state i).totalTicks = (r.state n).totalTicks
  requests : ∀ i ≥ n, (r.state i).ioLeft = (r.state n).ioLeft
  creations : ∀ i ≥ n, (r.state i).newLeft = (r.state n).newLeft
  no_wait : ∀ i ≥ n, ∀ c k, (r.state i).supervisor ≠ .wait c k

/-- The numbers that only become smaller settle one after the other: the requests only when there
are no more ticks. -/
theorem Endless.quiescent (hr : Endless cfg r) : ∃ n, Quiescent cfg r n := by
  obtain ⟨n₁, -, hticks⟩ := settles (f := fun i => (r.state i).totalTicks) (n := 0) (by
    intro i _
    rcases r.next i with ⟨-, hsame⟩ | ⟨t, -, hstep⟩
    · rw [hsame]
    · obtain ⟨place, h⟩ := hr.coherent i
      exact h.totalTicks_le hstep)
  have hsettled : ∀ i ≥ n₁, (r.state (i + 1)).totalTicks = (r.state i).totalTicks :=
    fun i hi => (hticks _ (Nat.le_succ_of_le hi)).trans (hticks i hi).symm
  obtain ⟨n₂, hn₂, hlock⟩ := hr.comes_to_lock n₁
  have hwait : ∀ i ≥ n₂, ∀ c k, (r.state i).supervisor ≠ .wait c k :=
    Trace.stable (p := fun s : Sim ncpu nproc => ∀ c k, s.supervisor ≠ .wait c k)
      (by simp [hlock]) (by
        intro i hi t hwait hstep
        obtain ⟨place, h⟩ := hr.coherent i
        exact (hr.moved hstep).no_wait h (hsettled i (hn₂.trans hi)) hwait)
  obtain ⟨n₃, hn₃, hrequests⟩ := settles (f := fun i => (r.state i).ioLeft) (n := n₂) (by
    intro i hi
    rcases r.next i with ⟨-, hsame⟩ | ⟨t, -, hstep⟩
    · rw [hsame]
    · obtain ⟨place, h⟩ := hr.coherent i
      exact (hr.moved hstep).ioLeft_le h (hsettled i (hn₂.trans hi)))
  obtain ⟨n₄, hn₄, hcreations⟩ := settles (f := fun i => (r.state i).newLeft) (n := n₃) (by
    intro i hi
    rcases r.next i with ⟨-, hsame⟩ | ⟨t, -, hstep⟩
    · rw [hsame]
    · obtain ⟨place, h⟩ := hr.coherent i
      exact (hr.moved hstep).newLeft_le h)
  have hn₂₄ : n₂ ≤ n₄ := hn₃.trans hn₄
  refine ⟨n₄, hr, ?_, ?_, hcreations, fun i hi => hwait i (hn₂₄.trans hi)⟩
  · intro i hi
    rw [hticks i (hn₂.trans (hn₂₄.trans hi)), hticks n₄ (hn₂.trans hn₂₄)]
  · intro i hi
    rw [hrequests i (hn₄.trans hi), hrequests n₄ hn₄]

namespace Quiescent

theorem moves (hq : Quiescent cfg r n) (hi : n ≤ i) :
    ∃ k ≥ i, SameSupervisor (r.state i) (r.state k) ∧
      SupervisorTurn cfg (r.state k) (r.state (k + 1)) :=
  hq.supervisor_moves (hq.no_wait i hi)

/-- No turn of the supervisor is a tick. -/
theorem no_tick {event : Option CpuState} (hq : Quiescent cfg r n) (hi : n ≤ i)
    (hsup : (r.state i).supervisor = .cpus c)
    (hcur : ((r.state i).simulator_cpu_data c).current = some p) :
    ¬ TickTurn (r.state i) (r.state (i + 1)) c p event := by
  intro htick
  obtain ⟨place, h⟩ := hq.coherent i
  have hlt := htick.totalTicks h hsup hcur
  have heq := hq.ticks i hi
  have heq' := hq.ticks (i + 1) (Nat.le_succ_of_le hi)
  omega

/-- `simulate_cpus` comes to every CPU, and to its end. -/
theorem comes_to_cpus (hq : Quiescent cfg r n) (hi : n ≤ i) {m : ℕ} (hm : m ≤ ncpu) :
    ∃ k ≥ i, (r.state k).supervisor = .cpus m := by
  induction m with
  | zero =>
    obtain ⟨k₁, hk₁, hlock⟩ := hq.comes_to_lock i
    obtain ⟨k₂, hk₂, hsame, hmove⟩ := hq.moves (hi.trans hk₁)
    have hgoes := hmove.goes
    rw [hsame.supervisor, hlock] at hgoes
    dsimp only at hgoes
    split at hgoes
    · exact absurd hgoes (hq.running _)
    have hk₂i : n ≤ k₂ + 1 := Nat.le_succ_of_le (hi.trans (hk₁.trans hk₂))
    obtain ⟨k₃, hk₃, hsame, hmove⟩ := hq.moves hk₂i
    have hread := hmove.goes
    rw [hsame.supervisor, hgoes] at hread
    obtain ⟨k₄, hk₄, hsame, hmove⟩ := hq.moves (Nat.le_succ_of_le (hk₂i.trans hk₃))
    have hcpus := hmove.goes
    rw [hsame.supervisor, hread] at hcpus
    exact ⟨k₄ + 1, by omega, hcpus⟩
  | succ m ih =>
    obtain ⟨k₁, hk₁, hcpus⟩ := ih (Nat.le_of_succ_le hm)
    obtain ⟨k₂, hk₂, hsame, hmove⟩ := hq.moves (hi.trans hk₁)
    have hsup := hsame.supervisor.trans hcpus
    have hgoes := hmove.goes
    rw [hsup] at hgoes
    rcases hgoes with ⟨-, -, hnext⟩ | ⟨c, p, event, hcur, hc, htick⟩ | ⟨hn, -⟩
    · exact ⟨k₂ + 1, by omega, hnext⟩
    · rw [← hc] at hsup
      exact absurd htick (hq.no_tick (hi.trans (hk₁.trans hk₂)) hsup hcur)
    · omega

/-- The simulator knows of no process on any CPU. -/
theorem current_none (hq : Quiescent cfg r n) (hi : n ≤ i) (c : Fin ncpu) :
    ((r.state i).simulator_cpu_data c).current = none := by
  by_contra hsome
  obtain ⟨p, hp⟩ := Option.ne_none_iff_exists'.mp hsome
  have hstays : ∀ k ≥ i, ((r.state k).simulator_cpu_data c).current = some p :=
    Trace.stable (p := fun s : Sim ncpu nproc => (s.simulator_cpu_data c).current = some p) hp (by
      intro k hk t hcur hstep
      obtain ⟨place, h⟩ := hq.coherent k
      exact (hq.moved hstep).current_stays h (hq.no_wait k (hi.trans hk)) hcur)
  obtain ⟨k₁, hk₁, hcpus⟩ := hq.comes_to_cpus hi c.isLt.le
  obtain ⟨k₂, hk₂, hsame, hmove⟩ := hq.moves (hi.trans hk₁)
  have hsup := hsame.supervisor.trans hcpus
  have hgoes := hmove.goes
  rw [hsup] at hgoes
  rcases hgoes with ⟨_, hnone, -⟩ | ⟨d, q, event, hcur, hd, htick⟩ | ⟨hn, -⟩
  · rw [hstays k₂ (hk₁.trans hk₂)] at hnone
    simp at hnone
  · rw [← hd] at hsup
    exact hq.no_tick (hi.trans (hk₁.trans hk₂)) hsup hcur htick
  · exact absurd c.isLt (Nat.not_lt.mpr hn)

/-- A process taken from the ready list would come to be known. -/
theorem not_dispatching (hq : Quiescent cfg r n) (hi : n ≤ i) : ¬ (r.state i).Dispatching c := by
  intro hdisp
  obtain ⟨k, ⟨hk, hknown⟩⟩ := leads_to (P := fun k => n ≤ k ∧ (r.state k).Dispatching c)
    (Q := fun k => n ≤ k ∧ ((r.state k).simulator_cpu_data c).current.isSome)
    (f := fun k => (r.state k).turnsLeft c) (by
      rintro k ⟨hk, hdisp⟩
      have hb : ¬ (r.state k).Blocked c := by
        obtain ⟨p, ⟨⟨state, hc⟩, hpc⟩ | ⟨⟨state, hc⟩, hpc⟩⟩ := hdisp
        · rw [Sim.Blocked, hc]
          rcases hpc with hpc | hpc | hpc <;> simp [hpc]
        · simp [Sim.Blocked, hc, hpc]
      obtain ⟨j, hj, hthread, hcpu, hmove⟩ := hq.thread_moves hb
      have hdisp' : (r.state j).Dispatching c := by
        rw [Sim.Dispatching, hthread, hcpu]
        exact hdisp
      have hleft : (r.state j).turnsLeft c = (r.state k).turnsLeft c := by
        rw [Sim.turnsLeft, Sim.turnsLeft, hthread, hcpu]
      refine ⟨j + 1, Nat.le_succ_of_le hj, ?_⟩
      rcases hmove.dispatching hdisp' with hsome | ⟨hdisp'', hlt⟩
      · exact .inl ⟨by omega, hsome⟩
      · exact .inr ⟨⟨by omega, hdisp''⟩, by omega⟩) (n := i) ⟨hi, hdisp⟩
  rw [hq.current_none hknown.1] at hknown
  simp at hknown

/-- With a process in the ready list, a thread would come to take one. -/
theorem head_none (hq : Quiescent cfg r n) (hcpu : 0 < ncpu) (hi : n ≤ i) :
    (r.state i).sched.ready.head = none := by
  by_contra hsome
  have hhead : ∀ k ≥ i, (r.state k).sched.ready.head ≠ none :=
    Trace.stable (p := fun s : Sim ncpu nproc => s.sched.ready.head ≠ none) hsome (by
      intro k hk t hhead hstep
      obtain ⟨place, h⟩ := hq.coherent k
      refine ((hq.moved hstep).head_stays h hhead).resolve_right ?_
      rintro ⟨c, hdisp⟩
      exact hq.not_dispatching (Nat.le_succ_of_le (hi.trans hk)) hdisp)
  obtain ⟨c⟩ : Nonempty (Fin ncpu) := ⟨⟨0, hcpu⟩⟩
  have hawake : ∀ k ≥ i, ¬ (r.state k).Blocked c := by
    rintro k hk (hasleep | hwait)
    · obtain ⟨place, h⟩ := hq.coherent k
      obtain ⟨⟨hrunning, hknown⟩, -⟩ := h.cpuOkAt hasleep
      obtain ⟨p, hp⟩ := (h.placed.current c).owned (by rw [hrunning]; trivial)
      rw [hq.current_none (hi.trans hk), hp] at hknown
      simp at hknown
    · obtain ⟨es, hs⟩ := hq.run k
      exact hhead k hk (hs.noLostWakeup c hwait)
  obtain ⟨k, hk, ⟨state, hc⟩, hpop⟩ := leads_to (P := fun k => i ≤ k)
    (Q := fun k => (∃ state, (r.state k).thread c = .student state) ∧
      (r.state k).sched.cpu c = .popFromQueue)
    (f := fun k => ((r.state k).thread c).turnsToPop ((r.state k).sched.cpu c)) (by
      intro k hk
      by_cases hpop : (∃ state, (r.state k).thread c = .student state) ∧
          (r.state k).sched.cpu c = .popFromQueue
      · exact ⟨k, le_rfl, .inl hpop⟩
      · obtain ⟨j, hj, hthread, hpc, hmove⟩ := hq.thread_moves (hawake k hk)
        have hij : i ≤ j := hk.trans hj
        have hlt := hmove.turnsToPop (hq.coherent j).choose_spec (hq.no_wait j (hi.trans hij))
          (hq.current_none (hi.trans hij) c) (hhead j hij) (by rwa [hthread, hpc])
        rw [hthread, hpc] at hlt
        exact ⟨j + 1, Nat.le_succ_of_le hj, .inr ⟨Nat.le_succ_of_le hij, hlt⟩⟩) le_rfl
  obtain ⟨j, hj, hthread, hpc, hmove⟩ := hq.thread_moves (hawake k hk)
  obtain ⟨place, h⟩ := hq.coherent j
  exact hq.not_dispatching (by omega)
    (hmove.pops h (hthread.trans hc) (hpc.trans hpop) (hhead j (by omega)))

/-- `simulate_io` would serve a request. -/
theorem io_queue_nil (hq : Quiescent cfg r n) (hi : n ≤ i) : (r.state i).io_queue = [] := by
  by_contra hne
  have hpos : ∀ k ≥ i, (r.state k).io_queue ≠ [] := by
    intro k hk hnil
    have heq := (hq.requests k (hi.trans hk)).trans (hq.requests i hi).symm
    exact hne (Sim.ioLeft_eq_zero.mp (heq.symm.trans (Sim.ioLeft_eq_zero.mpr hnil)))
  obtain ⟨k₁, hk₁, hcpus⟩ := hq.comes_to_cpus hi le_rfl
  obtain ⟨k₂, hk₂, hsame, hmove⟩ := hq.moves (hi.trans hk₁)
  have hgoes := hmove.goes
  rw [hsame.supervisor.trans hcpus] at hgoes
  rcases hgoes with ⟨hlt, -⟩ | ⟨c, -, -, -, hc, -⟩ | ⟨-, hio⟩
  · exact absurd hlt (lt_irrefl ncpu)
  · exact absurd hc c.isLt.ne
  · obtain ⟨k₃, hk₃, hsame, hmove⟩ := hq.moves (i := k₂ + 1) (by omega)
    have hlt := hmove.ioLeft_lt (hsame.supervisor.trans hio) (hpos k₃ (by omega))
    have heq := hq.requests k₃ (by omega)
    have heq' := hq.requests (k₃ + 1) (by omega)
    omega

/-- `simulate_creat` would create a process. -/
theorem all_created (hq : Quiescent cfg r n) (hi : n ≤ i) : (r.state i).newLeft = 0 := by
  by_contra hne
  have hnew : ∀ k ≥ n, (r.state k).processes_created < nproc := by
    intro k hk
    have heq := (hq.creations k hk).trans (hq.creations i hi).symm
    have hfirst := (r.state k).created_le_firstNew
    rw [heq.symm, Sim.newLeft] at hne
    omega
  obtain ⟨k, hk, hnk, p, hwake⟩ := leads_to (P := fun k => n ≤ k)
    (Q := fun k => n ≤ k ∧ ∃ p, (r.state k).supervisor = .wake p .creat)
    (f := fun k => (r.state k).toCreat) (by
      intro k hk
      obtain ⟨j, hj, hsame, hmove⟩ := hq.moves hk
      have hnj : n ≤ j := hk.trans hj
      have heq : (r.state j).toCreat = (r.state k).toCreat := by
        rw [Sim.toCreat, Sim.toCreat, Sim.distance, Sim.distance, hsame.supervisor, hsame.caller,
          hsame.time]
      refine ⟨j + 1, Nat.le_succ_of_le hj, ?_⟩
      rcases hmove.toCreat_lt (hnew j hnj) with hlt | hwake
      · exact .inr ⟨Nat.le_succ_of_le hnj, by omega⟩
      · exact .inl ⟨Nat.le_succ_of_le hnj, hwake⟩) hi
  obtain ⟨j, hj, hsame, hmove⟩ := hq.moves hnk
  obtain ⟨place, h⟩ := hq.coherent j
  have hlt := hmove.newLeft_lt h (hsame.supervisor.trans hwake)
  have heq := hq.creations j (by omega)
  have heq' := hq.creations (j + 1) (by omega)
  omega

/-- No CPU thread has a process in hand. -/
theorem not_on_cpu (hq : Quiescent cfg r n) (hcpu : 0 < ncpu) (hi : n ≤ i) :
    (r.state i).sched.hand (.inl c) ≠ some p := by
  intro hhand
  obtain ⟨place, h⟩ := hq.coherent i
  rcases h.in_hand (hq.no_wait i hi) (hq.current_none hi c) hhand with hdisp | ⟨state, hc, hpc⟩
  · exact hq.not_dispatching hi hdisp
  · -- a thread that is about to push comes to do so
    obtain ⟨j, hj, hthread, hcpu', hmove⟩ := hq.thread_moves (c := c) (n := i) (by
      simp [Sim.Blocked, hc, hpc])
    have hhead := hmove.pushes (hthread.trans hc) (hcpu'.trans hpc)
    exact hhead (hq.head_none hcpu (Nat.le_succ_of_le (hi.trans hj)))

/-- So every process has terminated when the supervisor is at the top of its loop. -/
theorem all_terminated (hq : Quiescent cfg r n) (hcpu : 0 < ncpu) (hi : n ≤ i)
    (hlock : (r.state i).supervisor = .lock) (p : Fin nproc) :
    (r.state i).sched.state p = .terminated := by
  obtain ⟨place, h⟩ := hq.coherent i
  cases hplace : place p with
  | inl t =>
    have hhand := (h.placed.keeps t p).mpr hplace
    cases t with
    | inl c => exact absurd hhand (hq.not_on_cpu hcpu hi)
    | inr w =>
      have hret := h.caller (by simp [hlock])
      rw [Fin.fin_one_eq_zero w, hand_inr hret] at hhand
      simp [Caller.hand] at hhand
  | inr rest =>
    cases rest with
    | uncreated =>
      obtain ⟨es, hs⟩ := hq.run i
      obtain ⟨hnew, hcaller⟩ := (h.placed.uncreated_iff p).mpr hplace
      have hfirst := hs.noneForgotten p hnew hcaller
      have hzero := hq.all_created hi
      have hp := p.isLt
      rw [Sim.newLeft] at hzero
      omega
    | queued =>
      obtain ⟨xs, hholds, hxs⟩ := h.placed.queue
      obtain ⟨x, ys, rfl⟩ := List.exists_cons_of_ne_nil (List.ne_nil_of_mem ((hxs p).mpr hplace))
      have hhead : (r.state i).sched.ready.head = some x := hholds.isList.1
      simp [hq.head_none hcpu hi] at hhead
    | waiting =>
      have hop := h.op p
      rw [hplace] at hop
      change (r.state i).opType p = _ at hop
      rw [if_neg (by simp [hlock])] at hop
      have hmem := (h.io_mem p).mpr hop
      simp [hq.io_queue_nil hi] at hmem
    | terminated => exact (h.placed.terminated_iff p).mpr hplace

end Quiescent

/-- With at least one CPU, every fair run in which no event is stored in the gap comes to the exit
of the simulator, with every process terminated and nothing queued, waiting for I/O or on a CPU. -/
theorem fair_run_exits (hr : FairRun cfg r) (hcpu : 0 < ncpu) :
    ∃ i, (r.state i).supervisor = .exited ∧ (r.state i).Finished := by
  by_cases hexit : ∃ i, (r.state i).supervisor = .exited
  · obtain ⟨i, hi⟩ := hexit
    obtain ⟨es, hs⟩ := hr.run i
    obtain ⟨place, h⟩ := hr.coherent i
    exact ⟨i, hi, h.finished (hs.exited hi)⟩
  · exfalso
    have hend : Endless cfg r := ⟨hr, fun i hi => hexit ⟨i, hi⟩⟩
    obtain ⟨n, hq⟩ := hend.quiescent
    obtain ⟨k, hk, hlock⟩ := hq.comes_to_lock n
    obtain ⟨j, hj, hsame, hmove⟩ := hq.moves hk
    have hlock' := hsame.supervisor.trans hlock
    have hnj : n ≤ j := hk.trans hj
    obtain ⟨place, h⟩ := hq.coherent j
    obtain ⟨es, hs⟩ := hq.run j
    have hcount := h.counted hs.terminatedCounted (hq.no_wait j hnj)
    have hall := State.terminated_eq_iff.mpr (hq.all_terminated hcpu hnj hlock')
    have hgoes := hmove.goes
    rw [hlock'] at hgoes
    dsimp only at hgoes
    rw [if_pos (hcount ▸ hall)] at hgoes
    exact hexit ⟨_, hgoes⟩

/-- After the exit nobody has a next step. -/
theorem next_of_exited {s : Sim ncpu nproc} (hexit : s.supervisor = .exited) (t : Turn ncpu) :
    s.next cfg t = none := by
  rw [Sim.next.eq_def]
  cases t with
  | supervisor =>
    dsimp only
    rw [Sim.supervisorStep, hexit]
  | thread | spurious => exact if_pos hexit

/-- Turns that were taken one after the other, and nobody moves after them. -/
theorem exec_trace {s s' : Sim ncpu nproc} {es es' : List (Event ncpu nproc)}
    {ts : List (Turn ncpu)} (hexec : s.exec cfg Sim.calm es ts = some (s', es')) :
    ∃ r : Trace (@CalmStep ncpu nproc cfg), r.state 0 = s ∧ ∀ i ≥ ts.length, r.state i = s' := by
  induction ts generalizing s es with
  | nil =>
    obtain ⟨rfl, -⟩ := Prod.mk.inj (Option.some_inj.mp hexec)
    exact ⟨.still s, rfl, fun _ _ => rfl⟩
  | cons t ts ih =>
    rw [Sim.exec] at hexec
    split at hexec
    · rename_i hcalm
      split at hexec
      · rename_i s₁ es₁ hnext
        obtain ⟨r, hstart, hend⟩ := ih hexec
        refine ⟨r.cons (hstart ▸ ⟨hcalm, es₁, hnext⟩ : CalmStep cfg s t (r.state 0)), rfl, ?_⟩
        intro i hi
        obtain ⟨i, rfl⟩ := Nat.exists_eq_add_of_lt ((Nat.succ_pos _).trans_le hi)
        rw [Nat.zero_add]
        exact hend i (Nat.le_of_succ_le_succ (by rwa [Nat.zero_add] at hi))
      · simp at hexec
    · simp at hexec

theorem fair_run_exits_oneProcess : ∃ r : Trace (@CalmStep 1 1 fifo),
    r.state 0 = oneProcess ∧ ∃ i, (r.state i).supervisor = .exited ∧ (r.state i).Finished := by
  have hexec : (oneProcess.exec fifo Sim.calm [] oneProcessTurns).map (fun r => r.1.supervisor) =
      some .exited := by decide +kernel
  obtain ⟨⟨s, es⟩, hexec, hexit⟩ := Option.map_eq_some_iff.mp hexec
  obtain ⟨r, hstart, hend⟩ := exec_trace hexec
  have hover : ∀ i ≥ oneProcessTurns.length, ∀ t, ¬ Sim.Enabled fifo (r.state i) t := by
    rintro i hi t ⟨x, hx⟩
    rw [hend i hi, next_of_exited hexit] at hx
    simp at hx
  refine ⟨r, hstart, fair_run_exits ⟨hstart ▸ oneProcess_initial, ?_, fun c => ?_⟩ Nat.one_pos⟩
  · exact Trace.fair_of_disabled fun i hi => hover i hi _
  · exact Trace.fair_of_disabled fun i hi => hover i hi _

end ECE3056.Scheduling
