import Magm.Collect.Interleaving

/-! # A call of `ringbuf_process_ring` without interference

`drain` says what a call does when no producer takes a step meanwhile: it goes through the records
up to the first busy one, leaves out the discarded ones, and stops when the callback fails or the
limit is reached; a record that the callback has failed on is released all the same. The steps of
the loop come to an end with exactly that (`processRing_drain`). -/

namespace Magm.Collect.Drain

open Magm.Lib.Buffer Magm.Lib.Circular Magm.Collect.Ringbuf Magm.Collect.Interleaving

/-- What a call hands to the callback, how many records it releases, and its result. -/
structure Drained where
  samples : List (List UInt8)
  taken : ℕ
  result : ℤ

/-- The result after one more record. -/
def Drained.after (d : Drained) (samples : List (List UInt8)) : Drained :=
  ⟨samples ++ d.samples, d.taken + 1, d.result⟩

section Calls
variable (k : ℕ) (cb : List UInt8 → ℤ) (n : ℕ)

/-- What a call does with the records that are not released, `cnt` samples being counted. -/
def drain : ℕ → List Entry → Drained
  | cnt, [] => ⟨[], 0, cnt⟩
  | cnt, e :: es => match e.progress with
    | .busy => ⟨[], 0, cnt⟩
    | .discarded => if n ≤ cnt then ⟨[], 1, cnt⟩ else (drain cnt es).after []
    | .committed =>
      if cb e.bytes < 0 then ⟨[e.bytes], 1, cb e.bytes⟩
      else if n ≤ cnt + 1 then ⟨[e.bytes], 1, (cnt + 1 : ℕ)⟩
      else (drain (cnt + 1) es).after [e.bytes]

/-- A step of the collector, whose callback is `cb`. -/
def alone (s : State) : State :=
  consume k (match s.pc with | .callback _ _ _ got => cb got | _ => 0) s

/-- The collector gets from one state to the other by its own steps. -/
def Reaches (s t : State) : Prop := ∃ m, (alone k cb)^[m] s = t

end Calls

section Alone
variable {k : ℕ} {cb : List UInt8 → ℤ} {n : ℕ} {s t u : State} {c : ℕ} {e : Entry}

theorem Reaches.refl (s : State) : Reaches k cb s s := ⟨0, rfl⟩

theorem Reaches.trans (h : Reaches k cb s t) (h' : Reaches k cb t u) : Reaches k cb s u := by
  obtain ⟨m, rfl⟩ := h
  obtain ⟨m', rfl⟩ := h'
  exact ⟨m' + m, Function.iterate_add_apply _ _ _ _⟩

theorem Reaches.single (h : alone k cb s = t) : Reaches k cb s t := ⟨1, h⟩

variable (cb) in
/-- The callback reads the whole sample. -/
theorem reaches_sample {l : Locals} {sample : ℕ} {len : BitVec 32} (he : s.log[c]? = some e) :
    ∀ (d : ℕ) {s' : State} {got : List UInt8}, s' = { s with pc := .callback l sample len got } →
      Inv k s' c → d + got.length = e.bytes.length →
        Reaches k cb s' { s with pc := .callback l sample len e.bytes } ∧
          Inv k { s with pc := .callback l sample len e.bytes } c
  | 0, s', got, hs, h, hd => by
    have ht := h.taken
    rw [hs] at ht
    obtain ⟨f, hf, -, -, -, -, -, -, hgot⟩ := ht
    obtain rfl : e = f := Option.some.inj (he.symm.trans hf)
    have hall : got = e.bytes := hgot.eq_of_length (by omega)
    rw [← hall, ← hs]
    exact ⟨Reaches.refl _, h⟩
  | d + 1, s', got, hs, h, hd => by
    have ht := h.taken
    rw [hs] at ht
    obtain ⟨f, hf, hcom, -, -, -, -, hlen, -⟩ := ht
    obtain rfl : e = f := Option.some.inj (he.symm.trans hf)
    have hword : len.toNat = e.bytes.length := by
      rw [hlen, Entry.word, toNat_headerWord (h.small c e (by rw [hs]; exact he)), hcom]
      rfl
    let got' := got ++ [cell (2 ^ k) s.ring.data (sample + got.length)]
    have hlen' : d + got'.length = e.bytes.length := by
      rw [List.length_append, List.length_singleton]; omega
    have hstep : alone k cb s' = { s with pc := .callback l sample len got' } := by
      have hlt : got.length < len.toNat := by omega
      rw [hs, alone, consume]
      exact if_pos hlt
    have hinv : Inv k (alone k cb s') c := (h.consume_callback _ (by rw [hs])).1
    obtain ⟨hreach, hinv'⟩ := reaches_sample he d hstep hinv hlen'
    exact ⟨(Reaches.single rfl).trans hreach, hinv'⟩

/-- The call comes to its end as `d` says. -/
def Finishes (k : ℕ) (cb : List UInt8 → ℤ) (s : State) (c : ℕ) (d : Drained) : Prop :=
  Reaches k cb s
    { s with
      ring := { s.ring with consumerPos := offset s.log (c + d.taken) }
      pc := .done d.result
      delivered := s.delivered ++ d.samples }

/-- The call ends, and no record is released. -/
theorem finishes_done (h : Inv k s c) {r : ℤ} (hr : Reaches k cb s { s with pc := .done r }) :
    Finishes k cb s c ⟨[], 0, r⟩ := by
  have hs : ({ s with pc := .done r } : State) =
      { s with
        ring := { s.ring with consumerPos := offset s.log (c + 0) }
        pc := .done r
        delivered := s.delivered ++ [] } := by
    rw [List.append_nil, Nat.add_zero, ← h.consumer]
  rw [hs] at hr
  exact hr

/-- After the release of record `c` the call ends, or goes on. -/
theorem finishes_release {l : Locals} {d : Drained} (hs : s.pc = .release l)
    (hpos : l.consPos = offset s.log (c + 1)) (hgo : ¬ l.n ≤ l.cnt → Finishes k cb
      { s with ring := { s.ring with consumerPos := l.consPos }, pc := .inner l } (c + 1) d) :
    Finishes k cb s c (if l.n ≤ l.cnt then ⟨[], 1, l.cnt⟩ else d.after []) := by
  have hstep : alone k cb s = { s with
      ring := { s.ring with consumerPos := l.consPos }
      pc := if l.n ≤ l.cnt then .done l.cnt else .inner l } := by
    rw [alone, consume, hs]
  by_cases hn : l.n ≤ l.cnt
  · rw [if_pos hn] at hstep ⊢
    unfold Finishes
    rw [List.append_nil, ← hpos]
    exact Reaches.single hstep
  · rw [if_neg hn] at hstep ⊢
    have hrest := (Reaches.single hstep).trans (hgo hn)
    unfold Finishes Drained.after
    rw [List.nil_append, Nat.add_comm d.taken, ← Nat.add_assoc]
    exact hrest

/-- The call goes on after steps that release nothing. -/
theorem Finishes.of_reaches {pc : Pc} {xs : List (List UInt8)} {d : Drained}
    (hr : Reaches k cb s { s with pc := pc, delivered := s.delivered ++ xs })
    (hf : Finishes k cb { s with pc := pc, delivered := s.delivered ++ xs } c d) :
    Finishes k cb s c ⟨xs ++ d.samples, d.taken, d.result⟩ := by
  have hrest := hr.trans hf
  unfold Finishes
  rw [← List.append_assoc]
  exact hrest

theorem Finishes.of_step {pc : Pc} {d : Drained} (hstep : alone k cb s = { s with pc := pc })
    (hf : Finishes k cb { s with pc := pc } c d) : Finishes k cb s c d :=
  (Reaches.single hstep).trans hf

/-- The local variables behind a record. -/
def past (l : Locals) (cnt p : ℕ) : Locals :=
  { l with cnt := cnt, gotNewData := true, consPos := p }

variable (cb) in
/-- What the collector does at the head of the inner loop. -/
theorem alone_inner (h : Inv k s c) {l : Locals} (hs : s.pc = .inner l)
    (he : s.log[c]? = some e) (hprod : l.prodPos = s.ring.producerPos) :
    alone k cb s = { s with
      pc :=
        let l' := past l l.cnt (offset s.log (c + 1))
        match e.progress with
        | .busy => .done l.cnt
        | .discarded => .release l'
        | .committed => .callback l' (offset s.log c % 2 ^ k + hdrSz) e.word [] } := by
  have ht := h.taken
  rw [hs] at ht
  obtain ⟨-, hpos, hle⟩ := ht
  have hlt : l.consPos < l.prodPos := by
    have htot := total_ge e
    have hend := h.place_le he
    rw [hpos, hprod, h.consumer]
    unfold hdrSz at htot
    omega
  obtain ⟨f, hf, hoff, hload⟩ := h.exists_next hpos hle hlt
  obtain rfl : e = f := Option.some.inj (he.symm.trans hf)
  have hsmall := h.small c e he
  have hnext : l.consPos + roundupLen e.word = offset s.log (c + 1) := by
    rw [hoff, offset_succ he, Entry.word, roundupLen_headerWord hsmall]
    rfl
  have hmask : l.consPos &&& (2 ^ k - 1) = offset s.log c % 2 ^ k := by rw [hoff, and_mask]
  have hbusy := headerWord_busy_iff hsmall e.progress
  have hdisc := headerWord_discard_iff hsmall e.progress
  rw [alone, consume, hs]
  simp only [if_pos hlt, hload, hnext]
  cases hp : e.progress with
  | busy =>
    have hset : e.word &&& busyBit ≠ 0 := fun hz => hbusy.mp hz hp
    rw [if_pos hset]
  | discarded =>
    have hzero : e.word &&& busyBit = 0 := hbusy.mpr (by rw [hp]; decide)
    have hset : ¬ e.word &&& discardBit = 0 := fun hz => hdisc.mp hz hp
    rw [if_neg (not_not_intro hzero), if_neg hset]
    rfl
  | committed =>
    have hzero : e.word &&& busyBit = 0 := hbusy.mpr (by rw [hp]; decide)
    have hzero' : e.word &&& discardBit = 0 := hdisc.mpr (by rw [hp]; decide)
    rw [if_neg (not_not_intro hzero), if_pos hzero', hmask]
    rfl

variable (cb) in
/-- Behind the last record the call ends; if it has found any, it looks once more. -/
theorem finishes_end (h : Inv k s c) {l : Locals} (hs : s.pc = .inner l)
    (hprod : l.prodPos = s.ring.producerPos) (hc : c = s.log.length) :
    Finishes k cb s c ⟨[], 0, l.cnt⟩ := by
  have ht := h.taken
  rw [hs] at ht
  obtain ⟨-, hpos, -⟩ := ht
  have heq : s.ring.consumerPos = s.ring.producerPos := by rw [h.consumer, h.producer, hc]
  have hlast : ∀ l' : Locals, l'.consPos = l.consPos → l'.prodPos = s.ring.producerPos →
      l'.gotNewData = false → alone k cb { s with pc := .inner l' } =
        { s with pc := .done l'.cnt } := by
    intro l' h1 h2 h3
    have hlt : ¬ l'.consPos < l'.prodPos := by omega
    simp only [alone, consume, if_neg hlt, h3, Bool.false_eq_true, if_false]
  have hself : s = { s with pc := .inner l } := by rw [← hs]
  refine finishes_done h ?_
  cases hgot : l.gotNewData with
  | false =>
    have hstep := hlast l rfl hprod hgot
    rw [← hself] at hstep
    exact Reaches.single hstep
  | true =>
    have hlt : ¬ l.consPos < l.prodPos := by omega
    have houter : alone k cb s = { s with pc := .outer l } := by
      rw [alone, consume, hs]
      simp only [if_neg hlt, hgot, if_true]
    exact ((Reaches.single houter).trans (Reaches.single rfl)).trans
      (Reaches.single (hlast { l with gotNewData := false, prodPos := s.ring.producerPos }
        rfl rfl rfl))

variable (cb) in
/-- A submitted record is handed to the callback. -/
theorem reaches_called (h : Inv k s c) {l : Locals} (hs : s.pc = .inner l)
    (he : s.log[c]? = some e) (hprod : l.prodPos = s.ring.producerPos)
    (hp : e.progress = .committed) :
    Reaches k cb s
      { s with
        pc := if cb e.bytes < 0 then .bail (past l l.cnt (offset s.log (c + 1))) (cb e.bytes)
          else .release (past l (l.cnt + 1) (offset s.log (c + 1)))
        delivered := s.delivered ++ [e.bytes] } := by
  have hstep := alone_inner cb h hs he hprod
  rw [hp] at hstep
  have hinv : Inv k (alone k cb s) c := h.consume_inner _ hs
  rw [hstep] at hinv
  obtain ⟨hsample, -⟩ := reaches_sample cb he e.bytes.length rfl hinv (Nat.add_zero _)
  have hword : e.word.toNat = e.bytes.length := by
    rw [Entry.word, toNat_headerWord (h.small c e he), hp]
    rfl
  have hall : ¬ e.bytes.length < e.word.toNat := by omega
  refine ((Reaches.single hstep).trans hsample).trans (Reaches.single ?_)
  simp only [alone, consume, if_neg hall]
  split_ifs <;> rfl

variable (cb) in
/-- **The loop over the records.** -/
theorem finishes_inner : ∀ (es : List Entry) {s : State} {c : ℕ} {l : Locals},
    s.log.drop c = es → Inv k s c → s.pc = .inner l → l.n = n → l.prodPos = s.ring.producerPos →
      Finishes k cb s c (drain cb n l.cnt es)
  | [], s, c, l, hes, h, hs, _, hprod => by
    have hle : s.log.length ≤ c := List.drop_eq_nil_iff.mp hes
    exact finishes_end cb h hs hprod (Nat.le_antisymm h.le hle)
  | e :: es, s, c, l, hes, h, hs, hn, hprod => by
    have he : s.log[c]? = some e := by
      have hfirst : (s.log.drop c)[0]? = s.log[c + 0]? := List.getElem?_drop
      rw [hes] at hfirst
      exact hfirst.symm
    have hes' : s.log.drop (c + 1) = es := by
      rw [← List.drop_drop, hes]; rfl
    have ht := h.taken
    rw [hs] at ht
    obtain ⟨hdel, -, -⟩ := ht
    have hstep := alone_inner cb h hs he hprod
    set l₁ := past l l.cnt (offset s.log (c + 1)) with hl₁
    -- the loop goes on behind the record
    have hgo : ∀ (cnt : ℕ) (xs : List (List UInt8)), xs = samples [e] → e.progress ≠ .busy →
        Finishes k cb { s with
          ring := { s.ring with consumerPos := offset s.log (c + 1) }
          pc := .inner (past l cnt (offset s.log (c + 1)))
          delivered := s.delivered ++ xs } (c + 1) (drain cb n cnt es) := by
      rintro cnt xs rfl hb
      have hdel' : s.delivered ++ samples [e] = samples (s.log.take (c + 1)) := by
        rw [samples_take_succ he, hdel]
      have hinv : Inv k { s with
          pc := .release (past l cnt (offset s.log (c + 1)))
          delivered := s.delivered ++ samples [e] } c :=
        h.advance ⟨e, he, hb, hdel', rfl, hprod.le⟩
      exact finishes_inner es (l := past l cnt (offset s.log (c + 1))) hes'
        (hinv.released he hb rfl ⟨hdel', rfl, hprod.le⟩) rfl hn hprod
    cases hp : e.progress with
    | busy =>
      rw [hp] at hstep
      rw [drain, hp]
      exact finishes_done h (Reaches.single hstep)
    | discarded =>
      rw [hp] at hstep
      rw [drain, hp, ← hn]
      have hnone : ([] : List (List UInt8)) = samples [e] := by simp [samples, hp]
      have hrest := hgo l.cnt [] hnone (by rw [hp]; decide)
      rw [List.append_nil, ← hn] at hrest
      exact Finishes.of_step hstep (finishes_release (s := { s with pc := .release l₁ })
        (l := l₁) rfl rfl fun _ => hrest)
    | committed =>
      have hone : [e.bytes] = samples [e] := by simp [samples, hp]
      have hcall := reaches_called cb h hs he hprod hp
      have hrest := hgo (l.cnt + 1) [e.bytes] hone (by rw [hp]; decide)
      rw [drain, hp]
      simp only
      by_cases herr : cb e.bytes < 0
      · rw [if_pos herr] at hcall ⊢
        refine Finishes.of_reaches (d := ⟨[], 1, cb e.bytes⟩) hcall ?_
        unfold Finishes
        rw [List.append_nil]
        exact Reaches.single rfl
      · rw [if_neg herr] at hcall ⊢
        set l₂ := past l (l.cnt + 1) (offset s.log (c + 1)) with hl₂
        have hrel := Finishes.of_reaches hcall
          (finishes_release (c := c) (l := l₂) rfl rfl fun _ => hrest)
        by_cases hlim : n ≤ l.cnt + 1
        · have hlim' : l₂.n ≤ l₂.cnt := hn.le.trans hlim
          rw [if_pos hlim'] at hrel
          rw [if_pos hlim]
          exact hrel
        · have hlim' : ¬ l₂.n ≤ l₂.cnt := fun hle => hlim (hn.ge.trans hle)
          rw [if_neg hlim'] at hrel
          rw [if_neg hlim]
          exact hrel

variable (cb) in
/-- A call that begins where the invariant holds. -/
theorem call_drain (h : Inv k s c) {r : ℤ} (hpc : s.pc = .done r) (n : ℕ) :
    ∃ m, (alone k cb)^[m] { s with pc := .start n } =
      let d := drain cb n 0 (s.log.drop c)
      { s with
        ring := { s.ring with consumerPos := offset s.log (c + d.taken) }
        pc := .done d.result
        delivered := s.delivered ++ d.samples } := by
  have ht := h.taken
  rw [hpc] at ht
  let l : Locals := ⟨n, 0, s.ring.consumerPos, s.ring.producerPos, false⟩
  have hinner : Inv k { s with pc := .inner l } c := h.advance ⟨ht, rfl, Nat.le_refl _⟩
  have hfin := finishes_inner cb (n := n) (s := { s with pc := .inner l }) (s.log.drop c) rfl hinner
    rfl rfl rfl
  exact ((Reaches.single rfl).trans (Reaches.single rfl)).trans hfin

/-- **A call without interference** comes to an end, and does what `drain` says: from every state
that a run reaches, with every limit and every callback. -/
theorem processRing_drain {data : Bytes} {acts : List Act} {r : ℤ}
    (hr : run k (init data) acts = some s) (hpc : s.pc = .done r) (cb : List UInt8 → ℤ) (n : ℕ) :
    ∃ c ≤ s.log.length, s.ring.consumerPos = offset s.log c ∧
      s.delivered = samples (s.log.take c) ∧
      ∃ m, (alone k cb)^[m] { s with pc := .start n } =
        let d := drain cb n 0 (s.log.drop c)
        { s with
          ring := { s.ring with consumerPos := offset s.log (c + d.taken) }
          pc := .done d.result
          delivered := s.delivered ++ d.samples } := by
  obtain ⟨c, -, h, -, -⟩ := (inv_init k data).run hr
  have ht := h.taken
  rw [hpc] at ht
  exact ⟨c, h.le, h.consumer, ht, call_drain cb h hpc n⟩

/-- A submitted record, a discarded one and a busy one; the callback fails on the first. -/
theorem processRing_drain_failing : ∃ s c m, run 6 (init fun _ => 0)
      [.reserve 4 0, .write 0 0 [1, 2, 3, 4], .submit 0, .reserve 2 0, .discard 1, .reserve 1 0] =
        some s ∧
    ((alone 6 fun _ => -5)^[m] { s with pc := .start 9 }).delivered =
      s.delivered ++ (drain (fun _ => -5) 9 0 (s.log.drop c)).samples := by
  have hpc : (run 6 (init fun _ => 0) [.reserve 4 0, .write 0 0 [1, 2, 3, 4], .submit 0,
      .reserve 2 0, .discard 1, .reserve 1 0]).map State.pc = some (.done 0) := rfl
  obtain ⟨s, hs, hdone⟩ := Option.map_eq_some_iff.mp hpc
  obtain ⟨c, -, -, -, m, hm⟩ := processRing_drain hs hdone (fun _ => -5) 9
  exact ⟨s, c, m, hs, by rw [hm]⟩

end Alone

/-! ### A callback that never fails -/

/-- The records in front of the first busy one. -/
def ready (log : List Entry) : List Entry := log.takeWhile fun e => e.progress ≠ .busy

/-- **Everything in front of the first busy record** is handed over, if the limit is not reached. -/
theorem drain_ready {cb : List UInt8 → ℤ} (hcb : ∀ xs, 0 ≤ cb xs) {n : ℕ} :
    ∀ (log : List Entry) {cnt : ℕ}, cnt + log.length < n →
      drain cb n cnt log = ⟨samples (ready log), (ready log).length,
        (cnt + (samples (ready log)).length : ℕ)⟩
  | [], cnt, _ => rfl
  | e :: es, cnt, hn => by
    rw [List.length_cons] at hn
    cases hp : e.progress with
    | busy =>
      have hnone : ready (e :: es) = [] := by simp [ready, hp]
      rw [hnone, drain, hp]
      rfl
    | discarded =>
      have hcons : ready (e :: es) = e :: ready es := by simp [ready, hp]
      have hlim : ¬ n ≤ cnt := by omega
      have hsame : samples (e :: ready es) = samples (ready es) := by simp [samples, hp]
      rw [drain, hp, hcons, hsame]
      simp only [if_neg hlim]
      rw [drain_ready hcb es (by omega)]
      rfl
    | committed =>
      have hcons : ready (e :: es) = e :: ready es := by simp [ready, hp]
      have hlim : ¬ n ≤ cnt + 1 := by omega
      have herr : ¬ cb e.bytes < 0 := not_lt.mpr (hcb _)
      have hmore : samples (e :: ready es) = e.bytes :: samples (ready es) := by
        simp [samples, hp]
      rw [drain, hp, hcons, hmore]
      simp only [if_neg herr, if_neg hlim]
      have hcnt : cnt + 1 + (samples (ready es)).length =
          cnt + ((samples (ready es)).length + 1) := by omega
      rw [drain_ready hcb es (by omega), hcnt]
      rfl

/-- **A poll empties the ring** up to the first busy record: the callback of the collector returns
0, and its limit is `INT_MAX`. -/
theorem poll_ready {k : ℕ} {s : State} {c : ℕ} (h : Inv k s c) {r : ℤ} (hpc : s.pc = .done r)
    {n : ℕ} (hn : s.log.length < n) :
    ∃ m, let t := (alone k fun _ => 0)^[m] { s with pc := .start n }
      let all := ready (s.log.drop c)
      t.delivered = s.delivered ++ samples all ∧ t.pc = .done ((samples all).length : ℕ) ∧
        t.ring.consumerPos = offset s.log (c + all.length) ∧ t.log = s.log := by
  obtain ⟨m, hm⟩ := call_drain (fun _ => 0) h hpc n
  have hlen : 0 + (s.log.drop c).length < n := by rw [List.length_drop]; omega
  have hall := @drain_ready (fun _ => 0) (fun _ => le_refl 0) n (s.log.drop c) 0 hlen
  refine ⟨m, ?_⟩
  simp only [hm, hall, Nat.zero_add, and_self]

end Magm.Collect.Drain
