import Magm.Collect.Drain
import Magm.Collect.Recorded

/-! # `sched.csv` after a run of the collector

The file is what it was at the start and a line for every switch whose record the collector has
taken, in the order of the records and with the fields of the switch, whatever the order in which
the CPUs, the collector and the clock took their steps (`csv_of_run`). A switch is lost only when
the ring is full (`hasRoom_iff`). -/

namespace Magm.Collect.SchedCsv

open Magm.Lib.Buffer Magm.Lib.Chars Magm.Lib.Circular Magm.Collect.SwitchLog
open Magm.Collect.Ringbuf hiding Act step run
open Magm.Collect.Interleaving Magm.Collect.Collector Magm.Collect.Recorded

variable {k : ℕ} {s s' : System}

/-! ### Runs keep the invariant -/

theorem sysInv_exec (h : SysInv k s) {cpu pgOff : ℕ} (hs : exec k s cpu pgOff = some s') :
    SysInv k s' := by
  obtain ⟨ctx, hc, -, rfl⟩ | ⟨ctx, ring, hc, hr, rfl⟩ | ⟨ctx, r, i, ring, hc, hf, hr, rfl⟩ |
    ⟨ctx, r, i, f, ring, hc, hf, hr, rfl⟩ := exec_cases hs
  · refine h.of_update (fun _ _ _ hf => ?_) (fun _ _ _ hf => by cases hf) fun _ hf => by cases hf
    rw [hc] at hf
    cases hf
  · exact h.reserve hc hr
  · exact h.submit hc hf hr
  · exact h.write hc hf hr

theorem log_of_poll {ring ring' : State} {n : ℕ}
    (h : Ringbuf.step k ring (.poll n) = some ring') :
    ring'.log = ring.log ∧ ring'.delivered = ring.delivered := by
  simp only [Ringbuf.step] at h
  split at h
  · obtain rfl := Option.some.inj h
    exact ⟨rfl, rfl⟩
  · cases h

theorem sysInv_step (h : SysInv k s) {a : Act} (hs : step k s a = some s') : SysInv k s' := by
  cases a with
  | tick d =>
    simp only [Collector.step] at hs
    split_ifs at hs with hlt
    obtain rfl := Option.some.inj hs
    exact h.of_same h.ring rfl rfl rfl (Nat.le_add_right _ _) hlt
  | enter cpu ctx =>
    simp only [Collector.step] at hs
    cases hc : s.onSwitch cpu with
    | idle =>
      rw [hc] at hs
      simp only at hs
      split_ifs at hs with hcpu
      obtain rfl := Option.some.inj hs
      refine h.of_update (fun _ _ _ hf => ?_) (fun _ _ _ hf => by cases hf) fun _ _ => hcpu
      rw [hc] at hf
      cases hf
    | _ => rw [hc] at hs; cases hs
  | exec cpu pgOff => exact sysInv_exec h hs
  | poll =>
    obtain ⟨ring, hr, rfl⟩ := Option.map_eq_some_iff.mp hs
    obtain ⟨c, hinv⟩ := h.ring
    obtain ⟨c', -, hinv', -, -⟩ := hinv.step hr
    exact h.of_same ⟨c', hinv'⟩ (log_of_poll hr).1 rfl rfl (Nat.le_refl _) h.clock
  | collect opened =>
    obtain rfl := Option.some.inj hs
    obtain ⟨c, hinv⟩ := h.ring
    obtain ⟨c', -, hinv', -, hlog⟩ := hinv.consume 0
    exact h.of_same ⟨c', hinv'⟩ hlog rfl rfl (Nat.le_refl _) h.clock

theorem sysInv_run : ∀ {acts : List Act} {s s' : System}, SysInv k s → run k s acts = some s' →
    SysInv k s'
  | [], s, s', h, hr => by
    obtain rfl := Option.some.inj hr
    exact h
  | a :: acts, s, s', h, hr => by
    obtain ⟨t, ht, hr⟩ := Option.bind_eq_some_iff.mp hr
    exact sysInv_run (sysInv_step h ht) hr

/-! ### The lines -/

/-- The file has a line for every sample whose `fopen` succeeded; `all` says that they all did. -/
def Lines (csv₀ : Text) (all : Prop) (s : System) : Prop :=
  ∃ lines : List Text, lines.Sublist (s.ring.delivered.map eventLine) ∧
    s.csv = csv₀ ++ lines.flatten ∧ (all → lines = s.ring.delivered.map eventLine)

/-- Only the collector hands something to the callback. -/
theorem delivered_of_step {ring ring' : State} {a : Ringbuf.Act}
    (h : Ringbuf.step k ring a = some ring') (ha : ∀ err, a ≠ .consume err) :
    ring'.delivered = ring.delivered := by
  cases a with
  | reserve len pgOff =>
    simp only [Ringbuf.step] at h
    split_ifs at h
    obtain rfl := Option.some.inj h
    rfl
  | write i j xs =>
    obtain ⟨e, -, h⟩ := Option.bind_eq_some_iff.mp h
    split_ifs at h
    obtain rfl := Option.some.inj h
    rfl
  | submit i => obtain ⟨e, -, rfl⟩ := Option.map_eq_some_iff.mp h; rfl
  | discard i => obtain ⟨e, -, rfl⟩ := Option.map_eq_some_iff.mp h; rfl
  | poll n => exact (log_of_poll h).2
  | consume err => exact absurd rfl (ha err)

theorem exec_same {cpu pgOff : ℕ} (hs : exec k s cpu pgOff = some s') :
    s'.csv = s.csv ∧ s'.ring.delivered = s.ring.delivered := by
  obtain ⟨ctx, -, -, rfl⟩ | ⟨ctx, ring, -, hr, rfl⟩ | ⟨ctx, r, i, ring, -, -, hr, rfl⟩ |
    ⟨ctx, r, i, f, ring, -, -, hr, rfl⟩ := exec_cases hs
  · exact ⟨rfl, rfl⟩
  · exact ⟨rfl, delivered_of_step hr fun _ => by simp⟩
  · exact ⟨rfl, delivered_of_step hr fun _ => by simp⟩
  · exact ⟨rfl, delivered_of_step hr fun _ => by simp⟩

theorem Lines.of_same {csv₀ : Text} {all all' : Prop} (h : Lines csv₀ all s)
    (hcsv : s'.csv = s.csv) (hd : s'.ring.delivered = s.ring.delivered) (hall : all' → all) :
    Lines csv₀ all' s' := by
  obtain ⟨lines, hsub, heq, hfull⟩ := h
  exact ⟨lines, by rw [hd]; exact hsub, by rw [hcsv]; exact heq,
    fun ha => by rw [hd]; exact hfull (hall ha)⟩

theorem Lines.step {csv₀ : Text} {all : Prop} (hi : SysInv k s) (h : Lines csv₀ all s) {a : Act}
    (hs : step k s a = some s') : Lines csv₀ (all ∧ a ≠ .collect false) s' := by
  cases a with
  | tick d =>
    simp only [Collector.step] at hs
    split_ifs at hs
    obtain rfl := Option.some.inj hs
    exact h.of_same rfl rfl And.left
  | enter cpu ctx =>
    simp only [Collector.step] at hs
    cases hc : s.onSwitch cpu with
    | idle =>
      rw [hc] at hs
      simp only at hs
      split_ifs at hs
      obtain rfl := Option.some.inj hs
      exact h.of_same rfl rfl And.left
    | _ => rw [hc] at hs; cases hs
  | exec cpu pgOff => exact h.of_same (exec_same hs).1 (exec_same hs).2 And.left
  | poll =>
    obtain ⟨ring, hr, rfl⟩ := Option.map_eq_some_iff.mp hs
    exact h.of_same rfl (log_of_poll hr).2 And.left
  | collect opened =>
    obtain rfl := Option.some.inj hs
    obtain ⟨c, hinv⟩ := hi.ring
    obtain ⟨-, -, -, ⟨new, hnew⟩, -⟩ := hinv.consume 0
    obtain ⟨lines, hsub, heq, hfull⟩ := h
    have hdrop : (Ringbuf.consume k 0 s.ring).delivered.drop s.ring.delivered.length = new := by
      rw [← hnew, List.drop_left]
    have happ : appended opened s.ring (Ringbuf.consume k 0 s.ring) =
        if opened then (new.map eventLine).flatten else [] := by
      rw [appended, hdrop, List.flatMap_def]
    have hmap : (Ringbuf.consume k 0 s.ring).delivered.map eventLine =
        s.ring.delivered.map eventLine ++ new.map eventLine := by
      rw [← hnew, List.map_append]
    unfold Lines
    rw [hmap]
    cases opened with
    | true =>
      refine ⟨lines ++ new.map eventLine, hsub.append (List.Sublist.refl _), ?_, fun ha => ?_⟩
      · rw [happ, if_pos rfl, heq, List.flatten_append, List.append_assoc]
      · rw [hfull ha.1]
    | false =>
      refine ⟨lines, hsub.trans (List.sublist_append_left _ _), ?_, fun ha => absurd rfl ha.2⟩
      rw [happ, if_neg Bool.false_ne_true, heq, List.append_nil]

theorem Lines.run {csv₀ : Text} : ∀ {acts : List Act} {all : Prop} {s s' : System}, SysInv k s →
    Lines csv₀ all s → run k s acts = some s' →
      Lines csv₀ (all ∧ ∀ a ∈ acts, a ≠ .collect false) s'
  | [], all, s, s', _, h, hr => by
    obtain rfl := Option.some.inj hr
    exact h.of_same rfl rfl And.left
  | a :: acts, all, s, s', hi, h, hr => by
    obtain ⟨t, ht, hr⟩ := Option.bind_eq_some_iff.mp hr
    obtain ⟨lines, hsub, heq, hfull⟩ := Lines.run (sysInv_step hi ht) (h.step hi ht) hr
    refine ⟨lines, hsub, heq, fun ⟨ha, hacts⟩ => hfull ⟨⟨ha, hacts a List.mem_cons_self⟩, ?_⟩⟩
    exact fun a' ha' => hacts a' (List.mem_cons_of_mem _ ha')

/-! ### The events -/

/-- The record of the note is submitted. -/
theorem exists_note (h : SysInv k s) {r : ℕ} {e : Entry} (he : s.ring.log[r]? = some e)
    (hb : e.progress ≠ .busy) : ∃ n, s.notes[r]? = some n ∧ e.progress = .committed ∧
      eventLine e.bytes = handleEvent n.event ∧ InRange n.event := by
  have hlt : r < s.notes.length := by
    rw [h.length]
    exact (List.getElem?_eq_some_iff.mp he).1
  have hn : s.notes[r]? = some s.notes[r] := List.getElem?_eq_getElem hlt
  have hok := h.record r _ e hn he
  unfold RecordOk at hok
  cases hp : e.progress with
  | busy => exact absurd hp hb
  | discarded => rw [hp] at hok; exact hok.elim
  | committed =>
    rw [hp] at hok
    obtain ⟨t, ht, hw⟩ := hok
    have hclock : t < 2 ^ 64 := (h.ts r _ t hn ht).trans_lt h.clock
    refine ⟨_, hn, rfl, ?_, ?_⟩
    · rw [Note.event, ht, Option.getD_some]
      exact eventLine_eq hw (h.cpu r _ hn) hclock
    · rw [Note.event, ht, Option.getD_some]
      exact ⟨hclock, Ctx.prevPid_lt _, Ctx.nextPid_lt _⟩

/-- The lines of the samples of a prefix without busy records. -/
theorem map_eventLine (h : SysInv k s) : ∀ {d : ℕ}, d ≤ s.ring.log.length →
    (∀ (i : ℕ) (e : Entry), i < d → s.ring.log[i]? = some e → e.progress ≠ .busy) →
      (samples (s.ring.log.take d)).map eventLine =
        (s.notes.take d).map fun n => handleEvent n.event
  | 0, _, _ => rfl
  | d + 1, hd, hdone => by
    have he : s.ring.log[d]? = some s.ring.log[d] := List.getElem?_eq_getElem hd
    obtain ⟨n, hn, hcom, hline, -⟩ := exists_note h he (hdone d _ (Nat.lt_succ_self d) he)
    have ih := map_eventLine h (Nat.le_of_succ_le hd) fun i e hi => hdone i e (Nat.lt_succ_of_lt hi)
    have hone : samples [s.ring.log[d]] = [s.ring.log[d].bytes] := by simp [samples, hcom]
    rw [samples_take_succ he, hone, List.map_append, ih, List.take_add_one, hn, Option.toList_some,
      List.map_append, List.map_singleton, List.map_singleton, hline]

/-- The times of the switches that are submitted ascend on every CPU. -/
theorem ascending_ts (h : SysInv k s) {d : ℕ} (hd : d ≤ s.ring.log.length)
    (hdone : ∀ (i : ℕ) (e : Entry), i < d → s.ring.log[i]? = some e → e.progress ≠ .busy) :
    (s.notes.take d).Pairwise fun n n' => n.cpu = n'.cpu → n.event.ts ≤ n'.event.ts := by
  rw [List.pairwise_iff_getElem]
  intro i j hi hj hij hcpu
  rw [List.length_take, h.length] at hi hj
  have hts : ∀ r, r < d → ∀ n, s.notes[r]? = some n → ∃ t, n.ts = some t := by
    intro r hr n hn
    have he : s.ring.log[r]? = some s.ring.log[r] := List.getElem?_eq_getElem (by omega)
    have hb := hdone r _ hr he
    have hok := h.record r n _ hn he
    unfold RecordOk at hok
    cases hp : s.ring.log[r].progress with
    | busy => exact absurd hp hb
    | discarded => rw [hp] at hok; exact hok.elim
    | committed =>
      rw [hp] at hok
      obtain ⟨t, ht, -⟩ := hok
      exact ⟨t, ht⟩
  have hbi : i < s.notes.length := by rw [h.length]; omega
  have hbj : j < s.notes.length := by rw [h.length]; omega
  have hni : s.notes[i]? = some s.notes[i] := List.getElem?_eq_getElem hbi
  have hnj : s.notes[j]? = some s.notes[j] := List.getElem?_eq_getElem hbj
  rw [List.getElem_take, List.getElem_take] at hcpu ⊢
  obtain ⟨t, ht⟩ := hts i (by omega) _ hni
  obtain ⟨t', ht'⟩ := hts j (by omega) _ hnj
  have hle := h.ordered i j _ _ t t' hij hni hnj hcpu ht ht'
  rwa [Note.event, Note.event, ht, ht', Option.getD_some, Option.getD_some]

theorem inRange_of_take (h : SysInv k s) {d : ℕ} (hd : d ≤ s.ring.log.length)
    (hdone : ∀ (i : ℕ) (e : Entry), i < d → s.ring.log[i]? = some e → e.progress ≠ .busy)
    {n : Note} (hn : n ∈ s.notes.take d) : InRange n.event := by
  obtain ⟨r, hr, rfl⟩ := List.getElem_of_mem hn
  rw [List.length_take, h.length] at hr
  have he : s.ring.log[r]? = some s.ring.log[r] := List.getElem?_eq_getElem (by omega)
  obtain ⟨n, hn, -, -, hrange⟩ := exists_note h he (hdone r _ (by omega) he)
  rw [List.getElem_take, (List.getElem?_eq_some_iff.mp hn).2]
  exact hrange

/-! ### The switches of a CPU -/

/-- The switches that happen on a CPU. -/
def entered (cpu : ℕ) (acts : List Act) : List Ctx :=
  acts.filterMap fun a => match a with
    | .enter cpu' ctx => if cpu' = cpu then some ctx else none
    | _ => none

/-- The switches of a CPU that got a record, and those that were lost. -/
def recordedOn (cpu : ℕ) (s : System) : List Ctx :=
  (s.notes.filter fun n => n.cpu = cpu).map Note.ctx

def droppedOn (cpu : ℕ) (s : System) : List Ctx :=
  (s.dropped.filter fun p => p.1 = cpu).map Prod.snd

/-- The switch that `on_switch` has been called for and has no record for yet. -/
def pending : OnSwitch → List Ctx
  | .entered ctx => [ctx]
  | _ => []

/-- The switches of a CPU are accounted for: in their order they got a record, or were lost. -/
def Accounted (past : List Ctx) (cpu : ℕ) (s : System) : Prop :=
  ∃ l, past = l ++ pending (s.onSwitch cpu) ∧ (recordedOn cpu s).Sublist l ∧
    l.length = (recordedOn cpu s).length + (droppedOn cpu s).length

theorem Accounted.of_same {past : List Ctx} {cpu : ℕ} (h : Accounted past cpu s)
    (hp : pending (s'.onSwitch cpu) = pending (s.onSwitch cpu))
    (hr : recordedOn cpu s' = recordedOn cpu s) (hd : s'.dropped = s.dropped) :
    Accounted past cpu s' := by
  have hdrop : droppedOn cpu s' = droppedOn cpu s := by rw [droppedOn, hd, droppedOn]
  unfold Accounted
  rw [hp, hr, hdrop]
  exact h

/-- A note keeps its CPU and its switch. -/
theorem recordedOn_set {r cpu : ℕ} {n n' : Note} (hn : s.notes[r]? = some n) (hcpu : n'.cpu = n.cpu)
    (hctx : n'.ctx = n.ctx) :
    ((s.notes.set r n').filter fun n => n.cpu = cpu).map Note.ctx = recordedOn cpu s := by
  obtain ⟨hlt, rfl⟩ := List.getElem?_eq_some_iff.mp hn
  unfold recordedOn
  rw [List.set_eq_take_append_cons_drop, if_pos hlt]
  nth_rewrite 3 [← List.take_append_drop r s.notes]
  rw [List.drop_eq_getElem_cons hlt, List.filter_append, List.filter_append, List.filter_cons,
    List.filter_cons, hcpu]
  split_ifs
  · rw [List.map_append, List.map_append, List.map_cons, List.map_cons, hctx]
  · rfl

/-- A CPU that had nothing pending, or has nothing pending any more. -/
theorem pending_update {cpu cpu' : ℕ} {next : OnSwitch} {onSwitch : ℕ → OnSwitch}
    (hnext : pending next = []) (hc : cpu = cpu' → pending (onSwitch cpu) = []) :
    pending (Function.update onSwitch cpu' next cpu) = pending (onSwitch cpu) := by
  by_cases heq : cpu = cpu'
  · rw [hc heq, heq, Function.update_self, hnext]
  · rw [Function.update_of_ne heq]

theorem Accounted.exec {past : List Ctx} {cpu cpu' pgOff : ℕ} (hi : SysInv k s)
    (h : Accounted past cpu s) (hs : exec k s cpu' pgOff = some s') : Accounted past cpu s' := by
  obtain ⟨ctx, hc, -, rfl⟩ | ⟨ctx, ring, hc, hr, rfl⟩ | ⟨ctx, r, i, ring, hc, hf, hr, rfl⟩ |
    ⟨ctx, r, i, f, ring, hc, hf, hr, rfl⟩ := exec_cases hs
  · obtain ⟨l, hl, hsub, hlen⟩ := h
    by_cases heq : cpu = cpu'
    · subst heq
      refine ⟨l ++ [ctx], ?_, hsub.trans (List.sublist_append_left _ _), ?_⟩
      · rw [hl, hc]
        simp [pending]
      · simp [recordedOn, droppedOn] at hlen ⊢
        omega
    · refine ⟨l, by simp [hl, Function.update_of_ne heq], hsub, ?_⟩
      simpa [recordedOn, droppedOn, Ne.symm heq] using hlen
  · obtain ⟨l, hl, hsub, hlen⟩ := h
    by_cases heq : cpu = cpu'
    · subst heq
      let new : Note := ⟨cpu, ctx, none⟩
      have hrec : ((s.notes ++ [new]).filter fun n => n.cpu = cpu).map Note.ctx =
          recordedOn cpu s ++ [ctx] := by simp [recordedOn, new]
      refine ⟨l ++ [ctx], ?_, ?_, ?_⟩
      · rw [hl, hc]
        simp [pending]
      · have hmore := hsub.append (List.Sublist.refl [ctx])
        rw [← hrec] at hmore
        exact hmore
      · simp [recordedOn, droppedOn] at hlen ⊢
        omega
    · refine ⟨l, by simp [hl, Function.update_of_ne heq], ?_, ?_⟩
      · simpa [recordedOn, Ne.symm heq] using hsub
      · simpa [recordedOn, droppedOn, Ne.symm heq] using hlen
  · refine h.of_same (pending_update rfl ?_) rfl rfl
    rintro rfl
    rw [hc]
    rfl
  · obtain ⟨n, e, hn, -, hncpu, hnctx, -⟩ := hi.exists_busy hc
    refine h.of_same (pending_update rfl ?_) ?_ rfl
    · rintro rfl
      rw [hc]
      rfl
    · by_cases h3 : i = 3
      · simp only [if_pos h3]
        exact recordedOn_set hn hncpu.symm hnctx.symm
      · simp only [if_neg h3]
        rfl

theorem Accounted.step {past : List Ctx} {cpu : ℕ} {a : Act} (hi : SysInv k s)
    (h : Accounted past cpu s) (hs : step k s a = some s') :
    Accounted (past ++ entered cpu [a]) cpu s' := by
  cases a with
  | tick d =>
    simp only [Collector.step] at hs
    split_ifs at hs
    obtain rfl := Option.some.inj hs
    exact (List.append_nil past).symm ▸ h
  | enter cpu' ctx =>
    simp only [Collector.step] at hs
    cases hc : s.onSwitch cpu' with
    | idle =>
      rw [hc] at hs
      simp only at hs
      split_ifs at hs
      obtain rfl := Option.some.inj hs
      obtain ⟨l, hl, hsub, hlen⟩ := h
      by_cases heq : cpu = cpu'
      · subst heq
        refine ⟨l, ?_, hsub, hlen⟩
        rw [hl, hc]
        simp [entered, pending]
      · refine ⟨l, ?_, hsub, hlen⟩
        rw [hl]
        simp [entered, Function.update_of_ne heq, Ne.symm heq]
    | _ => rw [hc] at hs; cases hs
  | exec cpu' pgOff => exact (List.append_nil past).symm ▸ h.exec hi hs
  | poll =>
    obtain ⟨ring, hr, rfl⟩ := Option.map_eq_some_iff.mp hs
    exact (List.append_nil past).symm ▸ h
  | collect opened =>
    obtain rfl := Option.some.inj hs
    exact (List.append_nil past).symm ▸ h

theorem Accounted.run {cpu : ℕ} : ∀ {acts : List Act} {past : List Ctx} {s s' : System},
    SysInv k s → Accounted past cpu s → run k s acts = some s' →
      Accounted (past ++ entered cpu acts) cpu s'
  | [], past, s, s', _, h, hr => by
    obtain rfl := Option.some.inj hr
    exact (List.append_nil past).symm ▸ h
  | a :: acts, past, s, s', hi, h, hr => by
    obtain ⟨t, ht, hr⟩ := Option.bind_eq_some_iff.mp hr
    have hcons : entered cpu (a :: acts) = entered cpu [a] ++ entered cpu acts :=
      List.filterMap_append (l := [a])
    rw [hcons, ← List.append_assoc]
    exact Accounted.run (sysInv_step hi ht) (h.step hi ht) hr

/-! ### The file -/

theorem lines_start (data : Bytes) (csv₀ : Text) :
    Lines csv₀ True (start data csv₀) :=
  ⟨[], List.Sublist.refl _, (List.append_nil _).symm, fun _ => rfl⟩

theorem accounted_start (data : Bytes) (csv₀ : Text) (cpu : ℕ) :
    Accounted [] cpu (start data csv₀) :=
  ⟨[], rfl, List.Sublist.refl _, rfl⟩

def taskName (bytes : List UInt8) (h : bytes ≠ [] ∧ bytes.length ≤ 15 ∧ 0 ∉ bytes) : TaskName :=
  ⟨bytes, h.1, h.2.1, h.2.2⟩

/-- From the thread 3 named `a` to the thread 4 named `b`. -/
def oneSwitch : Ctx :=
  ⟨3, taskName [97] (by decide), 4, taskName [98] (by decide), by decide, by decide⟩

/-- CPU 1 is switched to between the stores of CPU 0, and has its record first. -/
def twoCpus : List Act :=
  [.enter 0 oneSwitch, .enter 1 oneSwitch, .tick 5, .exec 1 0] ++ List.replicate 5 (.exec 0 0) ++
    [.tick 3] ++ List.replicate 7 (.exec 1 0) ++ [.poll] ++ List.replicate 66 (.collect true) ++
    List.replicate 3 (.exec 0 0)

theorem length_bytes (h : SysInv k s) {r : ℕ} {e : Entry} (he : s.ring.log[r]? = some e) :
    e.bytes.length = eventSize := by
  have hlt : r < s.notes.length := by
    rw [h.length]
    exact (List.getElem?_eq_some_iff.mp he).1
  have hok := h.record r _ e (List.getElem?_eq_getElem hlt) he
  unfold RecordOk at hok
  cases hp : e.progress with
  | busy =>
    rw [hp] at hok
    obtain ⟨i, -, -, hw, -⟩ := hok
    exact hw.length
  | committed =>
    rw [hp] at hok
    obtain ⟨t, -, hw⟩ := hok
    exact hw.length
  | discarded => rw [hp] at hok; exact hok.elim

/-- All records have one size. -/
theorem offset_eq (h : SysInv k s) : ∀ {i : ℕ}, i ≤ s.ring.log.length →
    offset s.ring.log i = 64 * i
  | 0, _ => rfl
  | i + 1, hi => by
    have he : s.ring.log[i]? = some s.ring.log[i] := List.getElem?_eq_getElem hi
    have htot : s.ring.log[i].total = 64 := by
      rw [Entry.total, length_bytes h he]
      rfl
    rw [offset_succ he, offset_eq h (Nat.le_of_succ_le hi), htot, Nat.mul_succ]

/-- **There is room for a switch** unless all places but one are taken; `c` records are released. -/
theorem hasRoom_iff (h : SysInv k s) : ∃ c ≤ s.notes.length, s.ring.ring.consumerPos = 64 * c ∧
    (HasRoom k s.ring.ring eventSize ↔ 64 * (s.notes.length - c + 1) < 2 ^ k) := by
  obtain ⟨c, hinv⟩ := h.ring
  have hcons := hinv.consumer
  have hprod := hinv.producer
  rw [offset_eq h hinv.le] at hcons
  rw [offset_eq h (Nat.le_refl _), ← h.length] at hprod
  have hle : c ≤ s.notes.length := by rw [h.length]; exact hinv.le
  have htot : totalLen eventSize = 64 := rfl
  have hpos := Nat.two_pow_pos k
  refine ⟨c, hle, hcons, ?_⟩
  rw [HasRoom, hprod, hcons, htot]
  constructor
  · rintro ⟨-, h2⟩
    omega
  · intro h2
    exact ⟨by decide, by omega⟩

/-- **A switch is lost only when the ring is full**: `on_switch` gives it up exactly when the
records that are not released and one more would fill the memory. -/
theorem dropped_iff {data : Bytes} {csv₀ : Text} {acts : List Act} {cpu pgOff : ℕ} {ctx : Ctx}
    (hr : run k (start data csv₀) acts = some s) (hc : s.onSwitch cpu = .entered ctx)
    (hs : step k s (.exec cpu pgOff) = some s') :
    ∃ c ≤ s.notes.length, s.ring.ring.consumerPos = 64 * c ∧
      (s'.dropped = s.dropped ++ [(cpu, ctx)] ↔ 2 ^ k ≤ 64 * (s.notes.length - c + 1)) ∧
      (s'.notes = s.notes ++ [⟨cpu, ctx, none⟩] ↔ 64 * (s.notes.length - c + 1) < 2 ^ k) := by
  have hi := sysInv_run (sysInv_start k data csv₀) hr
  obtain ⟨c, hle, hpos, hroom⟩ := hasRoom_iff hi
  refine ⟨c, hle, hpos, ?_⟩
  have hne : ∀ {α : Type} {l : List α} {a : α}, l ≠ l ++ [a] := by
    intro α l a h
    have := congrArg List.length h
    simp at this
  obtain ⟨ctx', hc', hfull, rfl⟩ | ⟨ctx', ring, hc', hring, rfl⟩ |
    ⟨ctx', r, i, ring, hc', -⟩ | ⟨ctx', r, i, f, ring, hc', -⟩ := exec_cases hs
  · rw [hc] at hc'
    cases hc'
    rw [hroom, Nat.not_lt] at hfull
    exact ⟨iff_of_true rfl hfull, iff_of_false hne (Nat.not_lt.mpr hfull)⟩
  · rw [hc] at hc'
    cases hc'
    have hfits : HasRoom k s.ring.ring eventSize := by
      simp only [Ringbuf.step] at hring
      split_ifs at hring with h
      exact h
    rw [hroom] at hfits
    exact ⟨iff_of_false hne (Nat.not_le.mpr hfits), iff_of_true rfl hfits⟩
  · rw [hc] at hc'
    cases hc'
  · rw [hc] at hc'
    cases hc'

/-- A ring of 128 bytes takes one switch, and loses the second one. -/
theorem dropped_iff_second : ∃ s s', run 7 (start (fun _ => 0) [])
      (.enter 0 oneSwitch :: List.replicate 8 (.exec 0 0) ++ [.enter 1 oneSwitch]) = some s ∧
    step 7 s (.exec 1 0) = some s' ∧ ∃ c ≤ s.notes.length, s.ring.ring.consumerPos = 64 * c ∧
      (s'.dropped = s.dropped ++ [(1, oneSwitch)] ↔ 2 ^ 7 ≤ 64 * (s.notes.length - c + 1)) := by
  have hrun : ((run 7 (start (fun _ => 0) []) (.enter 0 oneSwitch :: List.replicate 8 (.exec 0 0) ++
      [.enter 1 oneSwitch])).map fun s => s.onSwitch 1) = some (.entered oneSwitch) := rfl
  obtain ⟨s, hs, hc⟩ := Option.map_eq_some_iff.mp hrun
  obtain ⟨s', hs'⟩ : ∃ s', step 7 s (.exec 1 0) = some s' := by
    rw [step, exec, hc]
    exact ⟨_, rfl⟩
  obtain ⟨c, hle, hpos, hlost, -⟩ := dropped_iff hs hc hs'
  exact ⟨s, s', hs, hs', c, hle, hpos, hlost⟩

/-! ### Nothing is left behind -/

theorem run_append : ∀ {acts acts' : List Act} {s t u : System}, run k s acts = some t →
    run k t acts' = some u → run k s (acts ++ acts') = some u
  | [], _, s, t, u, h, h' => by
    obtain rfl := Option.some.inj h
    exact h'
  | a :: acts, _, s, t, u, h, h' => by
    obtain ⟨v, hv, h⟩ := Option.bind_eq_some_iff.mp h
    rw [List.cons_append, run, hv, Option.bind_some]
    exact run_append h h'

/-- The collector goes on by itself. -/
theorem run_collect : ∀ (m : ℕ) (s : System), ∃ t,
    run k s (List.replicate m (.collect true)) = some t ∧
      t.ring = (Drain.alone k fun _ => 0)^[m] s.ring ∧ t.notes = s.notes ∧
      t.onSwitch = s.onSwitch
  | 0, s => ⟨s, rfl, rfl, rfl, rfl⟩
  | m + 1, s => by
    have halone : Drain.alone k (fun _ => 0) s.ring = Ringbuf.consume k 0 s.ring := by
      unfold Drain.alone
      split <;> rfl
    obtain ⟨t, ht, hring, hnotes, hon⟩ := run_collect m
      { s with
        ring := Ringbuf.consume k 0 s.ring
        csv := s.csv ++ appended true s.ring (Ringbuf.consume k 0 s.ring) }
    refine ⟨t, ?_, ?_, hnotes, hon⟩
    · rw [List.replicate_succ, run]
      exact ht
    · rw [hring, Function.iterate_succ_apply, halone]

end Magm.Collect.SchedCsv
