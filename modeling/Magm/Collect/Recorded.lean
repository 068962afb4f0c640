import Magm.Collect.Collector

/-! # What the collector records

`SysInv` ties the records of the ring to the switches that got one: a busy record belongs to a CPU
whose `on_switch` has written its first fields, a submitted one has all of them. On a CPU a new
record is reserved after the last one is submitted, so the clock is read in the order of the
records. -/

namespace Magm.Collect.Recorded

open Magm.Lib.Buffer Magm.Lib.Chars Magm.Lib.Circular Magm.Collect.SwitchLog
open Magm.Collect.Ringbuf Magm.Collect.Interleaving Magm.Collect.Collector

/-! ### The invariant -/

/-- How the record of a switch stands. -/
def RecordOk (onSwitch : ℕ → OnSwitch) (r : ℕ) (n : Note) (e : Entry) : Prop :=
  match e.progress with
  | .busy => ∃ i, onSwitch n.cpu = .filling n.ctx r i ∧ i ≤ 6 ∧
      Written e.bytes n.cpu n.ctx (n.ts.getD 0) i ∧ (n.ts = none ↔ i ≤ 3)
  | .committed => ∃ t, n.ts = some t ∧ Written e.bytes n.cpu n.ctx t 6
  | .discarded => False

/-- The times of every CPU ascend. -/
def Ordered (notes : List Note) : Prop :=
  ∀ (r r' : ℕ) (n n' : Note) (t t' : ℕ), r < r' → notes[r]? = some n → notes[r']? = some n' →
    n.cpu = n'.cpu → n.ts = some t → n'.ts = some t' → t ≤ t'

structure SysInv (k : ℕ) (s : System) : Prop where
  ring : ∃ c, Inv k s.ring c
  clock : s.clock < 2 ^ 64
  length : s.notes.length = s.ring.log.length
  record : ∀ (r : ℕ) (n : Note) (e : Entry), s.notes[r]? = some n → s.ring.log[r]? = some e →
    RecordOk s.onSwitch r n e
  cpu : ∀ (r : ℕ) (n : Note), s.notes[r]? = some n → n.cpu < 2 ^ 32
  ts : ∀ (r : ℕ) (n : Note) (t : ℕ), s.notes[r]? = some n → n.ts = some t → t ≤ s.clock
  entered : ∀ cpu ctx, s.onSwitch cpu = .entered ctx → cpu < 2 ^ 32
  filling : ∀ cpu ctx r i, s.onSwitch cpu = .filling ctx r i → ∃ (n : Note) (e : Entry),
    s.notes[r]? = some n ∧ n.cpu = cpu ∧ n.ctx = ctx ∧ s.ring.log[r]? = some e ∧
      e.progress = .busy
  last : ∀ cpu ctx r i (r' : ℕ) (n' : Note), s.onSwitch cpu = .filling ctx r i → r < r' →
    s.notes[r']? = some n' → n'.cpu ≠ cpu
  ordered : Ordered s.notes

theorem sysInv_start (k : ℕ) (data : Bytes) (csv : Text) : SysInv k (start data csv) where
  ring := ⟨0, inv_init k data⟩
  clock := Nat.two_pow_pos 64
  length := rfl
  record r n e h := absurd h (by simp [start])
  cpu r n h := absurd h (by simp [start])
  ts r n t h := absurd h (by simp [start])
  entered cpu ctx h := by cases h
  filling cpu ctx r i h := by cases h
  last cpu ctx r i r' n' h := by cases h
  ordered r r' n n' t t' _ h := absurd h (by simp [start])

section Steps
variable {k : ℕ} {s s' : System} {cpu : ℕ} {ctx : Ctx}

theorem update_cases {onSwitch : ℕ → OnSwitch} {next next' : OnSwitch} {cpu cpu' : ℕ}
    (h : Function.update onSwitch cpu next cpu' = next') :
    cpu' = cpu ∧ next = next' ∨ cpu' ≠ cpu ∧ onSwitch cpu' = next' := by
  by_cases heq : cpu' = cpu
  · subst heq
    rw [Function.update_self] at h
    exact Or.inl ⟨rfl, h⟩
  · rw [Function.update_of_ne heq] at h
    exact Or.inr ⟨heq, h⟩

/-- A CPU that has no record may go on. -/
theorem RecordOk.update {onSwitch : ℕ → OnSwitch} {r : ℕ} {n : Note} {e : Entry} {next : OnSwitch}
    (h : RecordOk onSwitch r n e) (hfree : ∀ ctx i, onSwitch cpu ≠ .filling ctx r i) :
    RecordOk (Function.update onSwitch cpu next) r n e := by
  unfold RecordOk at h ⊢
  cases hp : e.progress with
  | busy =>
    rw [hp] at h
    obtain ⟨i, hi, hrest⟩ := h
    have hne : n.cpu ≠ cpu := by
      rintro rfl
      exact hfree _ _ hi
    exact ⟨i, by rw [Function.update_of_ne hne]; exact hi, hrest⟩
  | committed => rw [hp] at h; exact h
  | discarded => rw [hp] at h; exact h

/-- The collector and the clock do not touch the records. -/
theorem SysInv.of_same (h : SysInv k s) (hring : ∃ c, Inv k s'.ring c)
    (hlog : s'.ring.log = s.ring.log) (hon : s'.onSwitch = s.onSwitch)
    (hnotes : s'.notes = s.notes) (hclock : s.clock ≤ s'.clock) (hlt : s'.clock < 2 ^ 64) :
    SysInv k s' where
  ring := hring
  clock := hlt
  length := by rw [hnotes, hlog]; exact h.length
  record := by rw [hnotes, hlog, hon]; exact h.record
  cpu := by rw [hnotes]; exact h.cpu
  ts := by rw [hnotes]; exact fun r n t hn ht => (h.ts r n t hn ht).trans hclock
  entered := by rw [hon]; exact h.entered
  filling := by rw [hon, hnotes, hlog]; exact h.filling
  last := by rw [hon, hnotes]; exact h.last
  ordered := by rw [hnotes]; exact h.ordered

/-- A CPU that has no record may become idle or enter `on_switch`. -/
theorem SysInv.of_update (h : SysInv k s) {next : OnSwitch} {dropped : List (ℕ × Ctx)}
    (hfree : ∀ ctx r i, s.onSwitch cpu ≠ .filling ctx r i)
    (hnext : ∀ ctx r i, next ≠ .filling ctx r i)
    (hcpu : ∀ ctx, next = .entered ctx → cpu < 2 ^ 32) :
    SysInv k { s with onSwitch := Function.update s.onSwitch cpu next, dropped := dropped } where
  ring := h.ring
  clock := h.clock
  length := h.length
  record r n e hn he := (h.record r n e hn he).update fun ctx i => hfree ctx r i
  cpu := h.cpu
  ts := h.ts
  entered cpu' ctx hc := by
    rcases update_cases hc with ⟨rfl, hc'⟩ | ⟨-, hc⟩
    · exact hcpu ctx hc'
    · exact h.entered cpu' ctx hc
  filling cpu' ctx r i hc := by
    rcases update_cases hc with ⟨rfl, hc'⟩ | ⟨-, hc⟩
    · exact absurd hc' (hnext ctx r i)
    · exact h.filling cpu' ctx r i hc
  last cpu' ctx r i r' n' hc := by
    rcases update_cases hc with ⟨rfl, hc'⟩ | ⟨-, hc⟩
    · exact absurd hc' (hnext ctx r i)
    · exact h.last cpu' ctx r i r' n' hc
  ordered := h.ordered

theorem getElem?_concat {α : Type*} {l : List α} {a b : α} {i : ℕ} (h : (l ++ [a])[i]? = some b) :
    l[i]? = some b ∧ i < l.length ∨ i = l.length ∧ b = a := by
  rcases Nat.lt_or_ge i l.length with hi | hi
  · rw [List.getElem?_append_left hi] at h
    exact Or.inl ⟨h, hi⟩
  · rw [List.getElem?_append_right hi] at h
    have hlt := (List.getElem?_eq_some_iff.mp h).1
    rw [List.length_singleton] at hlt
    have hzero : i - l.length = 0 := by omega
    rw [hzero] at h
    exact Or.inr ⟨by omega, (Option.some.inj h).symm⟩

/-- **A record is reserved** for the switch. -/
theorem SysInv.reserve (h : SysInv k s) (hs : s.onSwitch cpu = .entered ctx) {ring : State}
    {pgOff : ℕ} (hr : Ringbuf.step k s.ring (.reserve eventSize pgOff) = some ring) :
    SysInv k
      { s with
        ring := ring
        onSwitch := Function.update s.onSwitch cpu (.filling ctx s.ring.log.length 0)
        notes := s.notes ++ [⟨cpu, ctx, none⟩] } := by
  obtain ⟨c, hinv⟩ := h.ring
  obtain ⟨c', -, hinv', -, -⟩ := hinv.step hr
  simp only [Ringbuf.step] at hr
  split_ifs at hr
  obtain rfl := Option.some.inj hr
  have hlen := h.length
  have hfree : ∀ {cpu' ctx' r i}, s.onSwitch cpu' = .filling ctx' r i → cpu' ≠ cpu := by
    rintro cpu' ctx' r i hf rfl
    rw [hs] at hf
    cases hf
  have hself : Function.update s.onSwitch cpu (.filling ctx s.ring.log.length 0) cpu =
      .filling ctx s.notes.length 0 := by
    rw [Function.update_self, hlen]
  have hnote : (s.notes ++ [⟨cpu, ctx, none⟩])[s.ring.log.length]? = some ⟨cpu, ctx, none⟩ := by
    rw [← hlen, List.getElem?_concat_length]
  refine ⟨⟨c', hinv'⟩, h.clock, ?_, ?_, ?_, ?_, ?_, ?_, ?_, ?_⟩
  · simp [Ringbuf.reserve, hlen]
  · intro r n e hn he
    rcases getElem?_concat hn with ⟨hn, hlt⟩ | ⟨rfl, rfl⟩
    · rcases getElem?_concat he with ⟨he, -⟩ | ⟨heq, -⟩
      · exact (h.record r n e hn he).update fun ctx' i hf => hfree hf rfl
      · omega
    · rcases getElem?_concat he with ⟨-, hlt⟩ | ⟨-, rfl⟩
      · omega
      · exact ⟨0, hself, Nat.zero_le 6, ⟨_, length_load _, rfl⟩, by simp⟩
  · intro r n hn
    rcases getElem?_concat hn with ⟨hn, -⟩ | ⟨-, rfl⟩
    · exact h.cpu r n hn
    · exact h.entered cpu ctx hs
  · intro r n t hn ht
    rcases getElem?_concat hn with ⟨hn, -⟩ | ⟨-, rfl⟩
    · exact h.ts r n t hn ht
    · cases ht
  · intro cpu' ctx' hc
    rcases update_cases hc with ⟨-, hc⟩ | ⟨-, hc⟩
    · cases hc
    · exact h.entered cpu' ctx' hc
  · intro cpu' ctx' r i hc
    rcases update_cases hc with ⟨rfl, hc'⟩ | ⟨-, hc⟩
    · cases hc'
      exact ⟨_, _, hnote, rfl, rfl, List.getElem?_concat_length, rfl⟩
    · obtain ⟨n, e, hn, hcpu, hctx, he, hb⟩ := h.filling cpu' ctx' r i hc
      refine ⟨n, e, ?_, hcpu, hctx, ?_, hb⟩
      · rwa [List.getElem?_append_left (List.getElem?_eq_some_iff.mp hn).1]
      · rwa [Ringbuf.reserve, List.getElem?_append_left (List.getElem?_eq_some_iff.mp he).1]
  · intro cpu' ctx' r i r' n' hc hlt hn
    rcases update_cases hc with ⟨rfl, hc'⟩ | ⟨heq, hc⟩
    · cases hc'
      rcases getElem?_concat hn with ⟨-, hlt'⟩ | ⟨heq, -⟩ <;> omega
    · rcases getElem?_concat hn with ⟨hn, -⟩ | ⟨-, rfl⟩
      · exact h.last cpu' ctx' r i r' n' hc hlt hn
      · exact Ne.symm heq
  · intro r r' n n' t t' hlt hn hn' hcpu ht ht'
    rcases getElem?_concat hn' with ⟨hn', hlt'⟩ | ⟨-, rfl⟩
    · rcases getElem?_concat hn with ⟨hn, -⟩ | ⟨heq, -⟩
      · exact h.ordered r r' n n' t t' hlt hn hn' hcpu ht ht'
      · omega
    · cases ht'

theorem getElem?_set_cases {α : Type*} {l : List α} {a b : α} {r i : ℕ}
    (h : (l.set r a)[i]? = some b) : i = r ∧ b = a ∨ i ≠ r ∧ l[i]? = some b := by
  by_cases hir : r = i
  · subst hir
    have hlt : r < l.length := by
      have := (List.getElem?_eq_some_iff.mp h).1
      rwa [List.length_set] at this
    rw [List.getElem?_set_self hlt] at h
    exact Or.inl ⟨rfl, (Option.some.inj h).symm⟩
  · rw [List.getElem?_set_ne hir] at h
    exact Or.inr ⟨Ne.symm hir, h⟩

/-- **The owner of record `r` goes on.** -/
theorem SysInv.change (h : SysInv k s) (n' : Note) (e' : Entry) (next : OnSwitch) {r i : ℕ}
    (hs : s.onSwitch cpu = .filling ctx r i) {ring : State} {n : Note} {e : Entry}
    (hinv : ∃ c, Inv k ring c) (hlog : ring.log = s.ring.log.set r e') (hn : s.notes[r]? = some n)
    (he : s.ring.log[r]? = some e) (hcpu : n.cpu = cpu) (hcpu' : n'.cpu = cpu)
    (hts : ∀ t, n'.ts = some t → n.ts = some t ∨ t = s.clock)
    (hok : RecordOk (Function.update s.onSwitch cpu next) r n' e')
    (hnext : ∀ ctx r' i, next = .filling ctx r' i → r' = r ∧ ctx = n'.ctx ∧ e'.progress = .busy)
    (hent : ∀ ctx, next ≠ .entered ctx) :
    SysInv k
      { s with
        ring := ring
        onSwitch := Function.update s.onSwitch cpu next
        notes := s.notes.set r n' } := by
  have hr : r < s.notes.length := (List.getElem?_eq_some_iff.mp hn).1
  have hr' : r < s.ring.log.length := (List.getElem?_eq_some_iff.mp he).1
  have hnote : (s.notes.set r n')[r]? = some n' := List.getElem?_set_self hr
  have hentry : (s.ring.log.set r e')[r]? = some e' := List.getElem?_set_self hr'
  refine ⟨hinv, h.clock, ?_, ?_, ?_, ?_, ?_, ?_, ?_, ?_⟩
  · rw [hlog, List.length_set, List.length_set]
    exact h.length
  · intro q m f hm hf
    rw [hlog] at hf
    rcases getElem?_set_cases hm with ⟨rfl, rfl⟩ | ⟨hq, hm⟩
    · rw [hentry] at hf
      exact Option.some.inj hf ▸ hok
    · rcases getElem?_set_cases hf with ⟨hq', -⟩ | ⟨-, hf⟩
      · exact absurd hq' hq
      · refine (h.record q m f hm hf).update fun ctx' j hc => ?_
        rw [hs] at hc
        cases hc
        exact hq rfl
  · intro q m hm
    rcases getElem?_set_cases hm with ⟨rfl, rfl⟩ | ⟨-, hm⟩
    · rw [hcpu', ← hcpu]
      exact h.cpu _ n hn
    · exact h.cpu q m hm
  · intro q m t hm ht
    rcases getElem?_set_cases hm with ⟨rfl, rfl⟩ | ⟨-, hm⟩
    · rcases hts t ht with hold | rfl
      · exact h.ts _ n t hn hold
      · exact Nat.le_refl _
    · exact h.ts q m t hm ht
  · intro cpu' ctx' hc
    rcases update_cases hc with ⟨-, hc'⟩ | ⟨-, hc⟩
    · exact absurd hc' (hent ctx')
    · exact h.entered cpu' ctx' hc
  · intro cpu' ctx' q j hc
    rcases update_cases hc with ⟨rfl, hc'⟩ | ⟨hne, hc⟩
    · obtain ⟨rfl, rfl, hb⟩ := hnext ctx' q j hc'
      exact ⟨n', e', hnote, hcpu', rfl, by rw [hlog]; exact hentry, hb⟩
    · obtain ⟨m, f, hm, hmc, hmx, hf, hb⟩ := h.filling cpu' ctx' q j hc
      have hq : r ≠ q := by
        rintro rfl
        rw [hn] at hm
        exact hne (by rw [← hmc, ← hcpu, Option.some.inj hm])
      refine ⟨m, f, ?_, hmc, hmx, ?_, hb⟩
      · rwa [List.getElem?_set_ne hq]
      · rwa [hlog, List.getElem?_set_ne hq]
  · intro cpu' ctx' q j r' m hc hlt hm
    -- whoever has record `q` has no later one
    have hlast : ∀ m', s.notes[r']? = some m' → m'.cpu ≠ cpu' := by
      intro m' hm'
      rcases update_cases hc with ⟨rfl, hc'⟩ | ⟨-, hc⟩
      · obtain ⟨rfl, -, -⟩ := hnext ctx' q j hc'
        exact h.last _ ctx _ i r' m' hs hlt hm'
      · exact h.last cpu' ctx' q j r' m' hc hlt hm'
    rcases getElem?_set_cases hm with ⟨rfl, rfl⟩ | ⟨-, hm⟩
    · rw [hcpu', ← hcpu]
      exact hlast n hn
    · exact hlast m hm
  · intro q q' m m' t t' hlt hm hm' hc ht ht'
    rcases getElem?_set_cases hm with ⟨rfl, rfl⟩ | ⟨-, hold⟩
    · rcases getElem?_set_cases hm' with ⟨rfl, -⟩ | ⟨-, hm'⟩
      · omega
      · exact absurd (hc.symm.trans hcpu') (h.last cpu ctx _ i q' m' hs hlt hm')
    · rcases getElem?_set_cases hm' with ⟨rfl, rfl⟩ | ⟨-, hm'⟩
      · rcases hts t' ht' with hread | rfl
        · exact h.ordered q _ m n t t' hlt hold hn (hc.trans (hcpu'.trans hcpu.symm)) ht hread
        · exact h.ts q m t hold ht
      · exact h.ordered q q' m m' t t' hlt hold hm' hc ht ht'

/-- The other stores do not read the clock. -/
theorem getElem?_fields {i : ℕ} (h : i ≠ 3) (now now' : ℕ) :
    (fields cpu ctx now)[i]? = (fields cpu ctx now')[i]? := by
  rcases i with _ | _ | _ | _ | i
  · rfl
  · rfl
  · rfl
  · exact absurd rfl h
  · rfl

/-- What `on_switch` knows while it fills its record. -/
theorem SysInv.exists_busy (h : SysInv k s) {r i : ℕ} (hs : s.onSwitch cpu = .filling ctx r i) :
    ∃ (n : Note) (e : Entry), s.notes[r]? = some n ∧ s.ring.log[r]? = some e ∧ n.cpu = cpu ∧
      n.ctx = ctx ∧ e.progress = .busy ∧ i ≤ 6 ∧ Written e.bytes cpu ctx (n.ts.getD 0) i ∧
        (n.ts = none ↔ i ≤ 3) := by
  obtain ⟨n, e, hn, rfl, rfl, he, hb⟩ := h.filling cpu ctx r i hs
  have hok := h.record r n e hn he
  unfold RecordOk at hok
  rw [hb] at hok
  obtain ⟨j, hj, hj6, hw, hts⟩ := hok
  rw [hs] at hj
  cases hj
  exact ⟨n, e, hn, he, rfl, rfl, hb, hj6, hw, hts⟩

theorem length_fields (cpu : ℕ) (ctx : Ctx) (now : ℕ) : (fields cpu ctx now).length = 6 := rfl

/-- **A field is written.** -/
theorem SysInv.write (h : SysInv k s) {r i : ℕ} {f : Field} (hs : s.onSwitch cpu = .filling ctx r i)
    (hf : (fields cpu ctx s.clock)[i]? = some f) {ring : State}
    (hr : Ringbuf.step k s.ring (.write r f.1 f.2) = some ring) :
    SysInv k
      { s with
        ring := ring
        onSwitch := Function.update s.onSwitch cpu (.filling ctx r (i + 1))
        notes := if i = 3 then s.notes.set r ⟨cpu, ctx, some s.clock⟩ else s.notes } := by
  obtain ⟨n, e, hn, he, hcpu, hctx, hb, -, hw, hts⟩ := h.exists_busy hs
  obtain ⟨c, hinv⟩ := h.ring
  obtain ⟨c', -, hinv', -, -⟩ := hinv.step hr
  have hi : i < 6 := by
    have hlt := (List.getElem?_eq_some_iff.mp hf).1
    rwa [length_fields] at hlt
  obtain ⟨e₁, he₁, hr⟩ := Option.bind_eq_some_iff.mp hr
  obtain ⟨he₁, -⟩ := busyEntry_eq_some_iff.mp he₁
  obtain rfl : e = e₁ := Option.some.inj (he.symm.trans he₁)
  split_ifs at hr with hfit
  obtain rfl := Option.some.inj hr
  by_cases h3 : i = 3
  · subst h3
    have hnone : n.ts = none := hts.mpr (Nat.le_refl 3)
    have hw' : Written e.bytes cpu ctx s.clock 3 := by
      obtain ⟨g, hg, hbytes⟩ := hw
      exact ⟨g, hg, by rw [hbytes, take_fields (Nat.le_refl 3) _ s.clock]⟩
    rw [if_pos rfl]
    refine h.change ⟨cpu, ctx, some s.clock⟩ { e with bytes := patch e.bytes f.1 f.2 } _ hs
      ⟨c', hinv'⟩ rfl hn he hcpu rfl ?_ ?_ ?_ fun _ hc => by cases hc
    · rintro t ⟨⟩
      exact Or.inr rfl
    · unfold RecordOk
      simp only [hb]
      exact ⟨4, Function.update_self .., by decide, hw'.succ hf, by simp⟩
    · rintro ctx' r' i' ⟨⟩
      exact ⟨rfl, rfl, hb⟩
  · have hself : s.notes.set r n = s.notes := by
      obtain ⟨hlt, rfl⟩ := List.getElem?_eq_some_iff.mp hn
      exact List.set_getElem_self hlt
    have hstep := h.change n { e with bytes := patch e.bytes f.1 f.2 }
      (.filling ctx r (i + 1)) hs ⟨c', hinv'⟩ rfl hn he hcpu hcpu (fun t ht => Or.inl ht)
      (by
        unfold RecordOk
        simp only [hb, hcpu, hctx]
        rw [getElem?_fields h3 _ (n.ts.getD 0)] at hf
        exact ⟨i + 1, Function.update_self .., hi, hw.succ hf, hts.trans (by omega)⟩)
      (by
        rintro ctx' r' i' ⟨⟩
        exact ⟨rfl, hctx.symm, hb⟩)
      fun _ hc => by cases hc
    rw [if_neg h3]
    rw [hself] at hstep
    exact hstep

/-- **The record is submitted.** -/
theorem SysInv.submit (h : SysInv k s) {r i : ℕ} (hs : s.onSwitch cpu = .filling ctx r i)
    (hf : (fields cpu ctx s.clock)[i]? = none) {ring : State}
    (hr : Ringbuf.step k s.ring (.submit r) = some ring) :
    SysInv k { s with ring := ring, onSwitch := Function.update s.onSwitch cpu .idle } := by
  obtain ⟨n, e, hn, he, hcpu, hctx, hb, hi, hw, hts⟩ := h.exists_busy hs
  obtain ⟨c, hinv⟩ := h.ring
  obtain ⟨c', -, hinv', -, -⟩ := hinv.step hr
  obtain rfl : i = 6 := by
    have hle := List.getElem?_eq_none_iff.mp hf
    rw [length_fields] at hle
    omega
  obtain ⟨e₁, he₁, rfl⟩ := Option.map_eq_some_iff.mp hr
  obtain ⟨he₁, -⟩ := busyEntry_eq_some_iff.mp he₁
  obtain rfl : e = e₁ := Option.some.inj (he.symm.trans he₁)
  obtain ⟨t, ht⟩ : ∃ t, n.ts = some t := by
    rcases hn' : n.ts with _ | t
    · exact absurd (hts.mp hn') (by decide)
    · exact ⟨t, rfl⟩
  have hself : s.notes.set r n = s.notes := by
    obtain ⟨hlt, rfl⟩ := List.getElem?_eq_some_iff.mp hn
    exact List.set_getElem_self hlt
  have hstep := h.change n { e with progress := .committed } .idle hs
    ⟨c', hinv'⟩ rfl hn he hcpu hcpu (fun t ht => Or.inl ht)
    (by
      rw [ht, Option.getD_some] at hw
      exact ⟨t, ht, by rw [hcpu, hctx]; exact hw⟩)
    (fun _ _ _ hc => by cases hc) fun _ hc => by cases hc
  rw [hself] at hstep
  exact hstep

end Steps

end Magm.Collect.Recorded
