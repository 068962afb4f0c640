import Magm.Collect.Ringbuf

/-! # The ring buffer in every interleaving

`Inv` holds after every step, whoever takes it: the records that the collector has not released fit
into one window of the memory, each with its header and its bytes, and the collector is where its
local variables say. A step only appends records and changes busy ones (`Grows`), so what the
callback got stays the samples of a prefix of the log (`delivered_of_run`). -/

namespace Magm.Collect.Interleaving

open Magm.Lib.Buffer Magm.Lib.Circular Magm.Collect.Ringbuf

/-! ### Positions -/

section Offsets
variable {log log' : List Entry} {e e' : Entry} {i j : ℕ}

theorem offset_succ (h : log[i]? = some e) : offset log (i + 1) = offset log i + e.total := by
  rw [offset, offset, List.take_add_one, h, Option.toList_some, List.map_append, List.sum_append,
    List.map_singleton, List.sum_singleton]

theorem offset_mono (h : i ≤ j) : offset log i ≤ offset log j := by
  obtain ⟨d, rfl⟩ := Nat.exists_eq_add_of_le h
  rw [offset, offset, List.take_add, List.map_append, List.sum_append]
  exact Nat.le_add_right _ _

theorem offset_append (h : i ≤ log.length) (l : List Entry) :
    offset (log ++ l) i = offset log i := by
  rw [offset, offset, List.take_append_of_le_length h]

/-- A record keeps its length, and so every record its position. -/
theorem offset_set (h : log[i]? = some e) (hlen : e'.bytes.length = e.bytes.length) (j : ℕ) :
    offset (log.set i e') j = offset log j := by
  have htotal : (log.set i e').map Entry.total = log.map Entry.total := by
    have htot : e'.total = e.total := by rw [Entry.total, hlen, Entry.total]
    refine List.ext_getElem? fun j => ?_
    rw [List.getElem?_map, List.getElem?_map, List.getElem?_set]
    split_ifs with hij hj
    · rw [← hij, h, Option.map_some, Option.map_some, htot]
    · rw [List.getElem?_eq_none (by omega)]
    · rfl
  rw [offset, offset, List.map_take, List.map_take, htotal]

/-- A record ends where the next one begins, if there is one. -/
theorem offset_add_total_le (h : log[i]? = some e) (hij : i < j) :
    offset log i + e.total ≤ offset log j := by
  rw [← offset_succ h]
  exact offset_mono hij

theorem total_ge (e : Entry) : hdrSz + e.bytes.length ≤ e.total := by
  unfold Entry.total totalLen hdrSz
  omega

end Offsets

/-! ### What a step does to the log -/

/-- Records are appended, and only busy ones change. -/
structure Grows (log log' : List Entry) : Prop where
  length_le : log.length ≤ log'.length
  places : ∀ i ≤ log.length, offset log' i = offset log i
  keeps : ∀ (i : ℕ) (e : Entry), log[i]? = some e → e.progress ≠ .busy → log'[i]? = some e

namespace Grows

theorem refl (log : List Entry) : Grows log log := ⟨Nat.le_refl _, fun _ _ => rfl, fun _ _ h _ => h⟩

theorem trans {a b c : List Entry} (h : Grows a b) (h' : Grows b c) : Grows a c where
  length_le := h.length_le.trans h'.length_le
  places i hi := (h'.places i (hi.trans h.length_le)).trans (h.places i hi)
  keeps i e he hb := h'.keeps i e (h.keeps i e he hb) hb

theorem append (log l : List Entry) : Grows log (log ++ l) where
  length_le := by rw [List.length_append]; exact Nat.le_add_right _ _
  places i hi := offset_append hi l
  keeps i e he _ := by
    rwa [List.getElem?_append_left (List.getElem?_eq_some_iff.mp he).1]

theorem set {log : List Entry} {i : ℕ} {e e' : Entry} (h : log[i]? = some e)
    (hb : e.progress = .busy) (hlen : e'.bytes.length = e.bytes.length) :
    Grows log (log.set i e') where
  length_le := (List.length_set ..).ge
  places j _ := offset_set h hlen j
  keeps j f hf hfb := by
    have hij : i ≠ j := by
      rintro rfl
      rw [h] at hf
      exact hfb (Option.some.inj hf ▸ hb)
    rwa [List.getElem?_set_ne hij]

/-- A prefix without busy records stays as it is. -/
theorem take_eq {log log' : List Entry} (h : Grows log log') {c : ℕ} (hc : c ≤ log.length)
    (hdone : ∀ (i : ℕ) (e : Entry), i < c → log[i]? = some e → e.progress ≠ .busy) :
    log'.take c = log.take c := by
  refine List.ext_getElem? fun i => ?_
  rcases Nat.lt_or_ge i c with hi | hi
  · have he : log[i]? = some log[i] := List.getElem?_eq_getElem (by omega)
    rw [List.getElem?_take_of_lt hi, List.getElem?_take_of_lt hi, he,
      h.keeps i _ he (hdone i _ hi he)]
  · rw [List.getElem?_take_eq_none hi, List.getElem?_take_eq_none hi]

end Grows

theorem samples_append (l l' : List Entry) : samples (l ++ l') = samples l ++ samples l' :=
  List.filterMap_append

theorem samples_take_succ {log : List Entry} {c : ℕ} {e : Entry} (h : log[c]? = some e) :
    samples (log.take (c + 1)) = samples (log.take c) ++ samples [e] := by
  rw [List.take_add_one, h, Option.toList_some, samples_append]

/-! ### The invariant -/

section Invariant
variable {k : ℕ}

/-- The record is in the memory; the other half of its header is not the collector's. -/
structure Stored (k : ℕ) (data : Bytes) (p : ℕ) (e : Entry) : Prop where
  word : Holds (2 ^ k) data p (toBytes 4 e.word.toNat)
  bytes : Holds (2 ^ k) data (p + hdrSz) e.bytes

/-- The collector has taken the first `c` records, as its local variables say. -/
def Taken (k : ℕ) (s : State) (c : ℕ) : Pc → Prop
  | .start _ | .done _ => s.delivered = samples (s.log.take c)
  | .outer l => s.delivered = samples (s.log.take c) ∧ l.consPos = s.ring.consumerPos
  | .inner l => s.delivered = samples (s.log.take c) ∧ l.consPos = s.ring.consumerPos ∧
      l.prodPos ≤ s.ring.producerPos
  | .callback l sample len got => ∃ e : Entry, s.log[c]? = some e ∧ e.progress = .committed ∧
      s.delivered = samples (s.log.take c) ∧ l.consPos = offset s.log (c + 1) ∧
      l.prodPos ≤ s.ring.producerPos ∧ sample = offset s.log c % 2 ^ k + hdrSz ∧ len = e.word ∧
      got <+: e.bytes
  | .release l => ∃ e : Entry, s.log[c]? = some e ∧ e.progress ≠ .busy ∧
      s.delivered = samples (s.log.take (c + 1)) ∧ l.consPos = offset s.log (c + 1) ∧
      l.prodPos ≤ s.ring.producerPos
  | .bail l _ => ∃ e : Entry, s.log[c]? = some e ∧ e.progress ≠ .busy ∧
      s.delivered = samples (s.log.take (c + 1)) ∧ l.consPos = offset s.log (c + 1)

/-- What holds after every step; `c` records are released. -/
structure Inv (k : ℕ) (s : State) (c : ℕ) : Prop where
  le : c ≤ s.log.length
  small : ∀ (i : ℕ) (e : Entry), s.log[i]? = some e → e.bytes.length < 2 ^ 30
  producer : s.ring.producerPos = offset s.log s.log.length
  consumer : s.ring.consumerPos = offset s.log c
  room : s.ring.producerPos < s.ring.consumerPos + 2 ^ k
  finished : ∀ (i : ℕ) (e : Entry), i < c → s.log[i]? = some e → e.progress ≠ .busy
  stored : ∀ (i : ℕ) (e : Entry), c ≤ i → s.log[i]? = some e →
    Stored k s.ring.data (offset s.log i) e
  taken : Taken k s c s.pc

theorem inv_init (k : ℕ) (data : Bytes) : Inv k (init data) 0 where
  le := Nat.le_refl 0
  small i e h := absurd h (by simp [init])
  producer := rfl
  consumer := rfl
  room := by rw [Nat.add_comm]; exact Nat.lt_add_of_pos_left (Nat.two_pow_pos k)
  finished i e h := absurd h (Nat.not_lt_zero i)
  stored i e _ h := absurd h (by simp [init])
  taken := rfl

/-! ### Places of the memory -/

namespace Inv

variable {s s' : State} {c i j : ℕ} {e f : Entry}

theorem place_ge (h : Inv k s c) (hi : c ≤ i) : s.ring.consumerPos ≤ offset s.log i := by
  rw [h.consumer]
  exact offset_mono hi

theorem place_le (h : Inv k s c) (he : s.log[i]? = some e) :
    offset s.log i + e.total ≤ s.ring.producerPos := by
  rw [h.producer]
  exact offset_add_total_le he (List.getElem?_eq_some_iff.mp he).1

/-- A busy record is not released. -/
theorem le_of_busy (h : Inv k s c) (he : s.log[i]? = some e) (hb : e.progress = .busy) : c ≤ i := by
  by_contra hlt
  exact h.finished i e (by omega) he hb

/-- A store into record `i` does not meet another record. -/
theorem stored_of_ne (h : Inv k s c) {p : ℕ} {xs : List UInt8} (hi : c ≤ i)
    (he : s.log[i]? = some e) (hp : offset s.log i ≤ p)
    (hp' : p + xs.length ≤ offset s.log i + e.total) (hj : c ≤ j) (hf : s.log[j]? = some f)
    (hij : i ≠ j) : Stored k (store (2 ^ k) p xs s.ring.data) (offset s.log j) f := by
  have hroom := h.room
  have hgei := h.place_ge hi
  have hgej := h.place_ge hj
  have hlei := h.place_le he
  have hlej := h.place_le hf
  have htot := total_ge f
  have horder : offset s.log i + e.total ≤ offset s.log j ∨
      offset s.log j + f.total ≤ offset s.log i := by
    rcases Nat.lt_or_ge i j with hlt | hge
    · exact Or.inl (offset_add_total_le he hlt)
    · exact Or.inr (offset_add_total_le hf (by omega))
  obtain ⟨hword, hbytes⟩ := h.stored j f hj hf
  refine ⟨hword.store ?_, hbytes.store ?_⟩
  · rw [length_toBytes]
    unfold Apart hdrSz at *
    omega
  · unfold Apart hdrSz at *
    omega

/-! ### The producers keep it -/

/-- What the producers do does not concern the collector. -/
theorem taken_grows (h : Inv k s c) (hg : Grows s.log s'.log) (hpc : s'.pc = s.pc)
    (hd : s'.delivered = s.delivered) (hcons : s'.ring.consumerPos = s.ring.consumerPos)
    (hprod : s.ring.producerPos ≤ s'.ring.producerPos) : Taken k s' c s'.pc := by
  have htaken := h.taken
  have htake : s'.log.take c = s.log.take c := hg.take_eq h.le h.finished
  rw [hpc]
  -- record `c` is finished once the collector has seen it
  have hnext : ∀ e : Entry, s.log[c]? = some e → e.progress ≠ .busy →
      s'.log[c]? = some e ∧ offset s'.log c = offset s.log c ∧
        offset s'.log (c + 1) = offset s.log (c + 1) ∧
          s'.log.take (c + 1) = s.log.take (c + 1) := by
    intro e he hb
    have hlt : c < s.log.length := (List.getElem?_eq_some_iff.mp he).1
    have he' := hg.keeps c e he hb
    refine ⟨he', hg.places c hlt.le, hg.places _ hlt, ?_⟩
    rw [List.take_add_one, List.take_add_one, he, he', htake]
  cases hs : s.pc with
  | start n => rw [hs] at htaken; rw [Taken, htake, hd]; exact htaken
  | done r => rw [hs] at htaken; rw [Taken, htake, hd]; exact htaken
  | outer l => rw [hs] at htaken; rw [Taken, htake, hd, hcons]; exact htaken
  | inner l =>
    rw [hs] at htaken
    rw [Taken, htake, hd, hcons]
    exact ⟨htaken.1, htaken.2.1, htaken.2.2.trans hprod⟩
  | callback l sample len got =>
    rw [hs] at htaken
    obtain ⟨e, he, hcom, hdel, hpos, hp, hsample, hlen, hgot⟩ := htaken
    obtain ⟨he', hoff, hoff', -⟩ := hnext e he (by rw [hcom]; decide)
    exact ⟨e, he', hcom, by rw [hd, htake, hdel], hpos.trans hoff'.symm, hp.trans hprod,
      by rw [hoff, hsample], hlen, hgot⟩
  | release l =>
    rw [hs] at htaken
    obtain ⟨e, he, hb, hdel, hpos, hp⟩ := htaken
    obtain ⟨he', -, hoff', htake'⟩ := hnext e he hb
    exact ⟨e, he', hb, by rw [hd, htake', hdel], hpos.trans hoff'.symm, hp.trans hprod⟩
  | bail l err =>
    rw [hs] at htaken
    obtain ⟨e, he, hb, hdel, hpos⟩ := htaken
    obtain ⟨he', -, hoff', htake'⟩ := hnext e he hb
    exact ⟨e, he', hb, by rw [hd, htake', hdel], hpos.trans hoff'.symm⟩

theorem reserve (h : Inv k s c) {len pgOff : ℕ} (hr : HasRoom k s.ring len) :
    Inv k (reserve k s len pgOff) c ∧ Grows s.log (Ringbuf.reserve k s len pgOff).log := by
  have hg : Grows s.log (Ringbuf.reserve k s len pgOff).log := Grows.append _ _
  have hpos := Nat.two_pow_pos k
  have hle : s.ring.consumerPos ≤ s.ring.producerPos := by
    rw [h.consumer, h.producer]; exact offset_mono h.le
  obtain ⟨hlen, hspace⟩ := hr
  have hroom : s.ring.producerPos + totalLen len < s.ring.consumerPos + 2 ^ k := by omega
  have htot : hdrSz + len ≤ totalLen len := by unfold totalLen hdrSz; omega
  -- the header is written behind all records
  set hdr := toBytes 4 (headerWord len .busy).toNat ++ toBytes 4 pgOff with hhdr
  have hhdrlen : hdr.length = 8 := by simp [hhdr]
  set data := store (2 ^ k) s.ring.producerPos hdr s.ring.data with hdata
  set new : Entry := ⟨load (2 ^ k) data (s.ring.producerPos + hdrSz) len, .busy⟩ with hnew
  have hnewlen : new.bytes.length = len := length_load len
  have hlog : (Ringbuf.reserve k s len pgOff).log = s.log ++ [new] := rfl
  have hold : ∀ (j : ℕ) (f : Entry), c ≤ j → s.log[j]? = some f →
      Stored k data (offset s.log j) f := by
    intro j f hj hf
    have hge := h.place_ge hj
    have hlej := h.place_le hf
    have htotf := total_ge f
    obtain ⟨hword, hbytes⟩ := h.stored j f hj hf
    refine ⟨hword.store (Or.inl ?_), hbytes.store (Or.inl ?_)⟩
    · rw [length_toBytes, hhdrlen]; unfold hdrSz at *; omega
    · rw [hhdrlen]; unfold hdrSz at *; omega
  have hcase : ∀ {i : ℕ} {e : Entry}, (s.log ++ [new])[i]? = some e →
      s.log[i]? = some e ∨ i = s.log.length ∧ e = new := by
    intro i e he
    rcases Nat.lt_or_ge i s.log.length with hi | hi
    · rw [List.getElem?_append_left hi] at he
      exact Or.inl he
    · rw [List.getElem?_append_right hi] at he
      obtain ⟨hi', heq⟩ := List.getElem?_eq_some_iff.mp he
      rw [List.length_singleton] at hi'
      have hzero : i - s.log.length = 0 := by omega
      refine Or.inr ⟨by omega, ?_⟩
      rw [hzero] at he
      exact (Option.some.inj he).symm
  refine ⟨?_, hg⟩
  constructor
  · exact h.le.trans hg.length_le
  · intro i e he
    rcases hcase he with he | ⟨-, rfl⟩
    · exact h.small i e he
    · rw [hnewlen]; exact hlen
  · have hlast : (s.log ++ [new])[s.log.length]? = some new := by simp
    rw [hlog, List.length_append, List.length_singleton, offset_succ hlast,
      offset_append (Nat.le_refl _), ← h.producer, Entry.total, hnewlen]
    rfl
  · rw [hlog, offset_append h.le]
    exact h.consumer
  · exact hroom
  · intro i e hi he
    rcases hcase he with he | ⟨rfl, -⟩
    · exact h.finished i e hi he
    · exact absurd h.le (by omega)
  · intro i e hi he
    rw [hlog]
    rcases hcase he with he | ⟨rfl, rfl⟩
    · rw [offset_append (List.getElem?_eq_some_iff.mp he).1.le]
      exact hold i e hi he
    · rw [offset_append (Nat.le_refl _), ← h.producer]
      have hstored : Holds (2 ^ k) data s.ring.producerPos hdr :=
        holds_store (by rw [hhdrlen]; unfold hdrSz at *; omega)
      refine ⟨?_, holds_load len⟩
      have hword : new.word = headerWord len .busy := by rw [Entry.word, hnewlen]
      rw [hword]
      exact (holds_append.mp hstored).1
  · exact taken_grows h hg rfl rfl rfl (Nat.le_add_right _ _)

/-- A busy record changes in its place. -/
theorem change (h : Inv k s c) {i p : ℕ} {e : Entry} (e' : Entry) {xs : List UInt8}
    (he : s.log[i]? = some e) (hb : e.progress = .busy) (hlen : e'.bytes.length = e.bytes.length)
    (hp : offset s.log i ≤ p) (hp' : p + xs.length ≤ offset s.log i + e.total)
    (hstored : Stored k (store (2 ^ k) p xs s.ring.data) (offset s.log i) e') :
    Inv k { s with
      ring := { s.ring with data := store (2 ^ k) p xs s.ring.data }
      log := s.log.set i e' } c := by
  have hg : Grows s.log (s.log.set i e') := Grows.set he hb hlen
  have hci := h.le_of_busy he hb
  have hi : i < s.log.length := (List.getElem?_eq_some_iff.mp he).1
  have hcase : ∀ {j : ℕ} {f : Entry}, (s.log.set i e')[j]? = some f →
      i = j ∧ f = e' ∨ i ≠ j ∧ s.log[j]? = some f := by
    intro j f hf
    by_cases hij : i = j
    · subst hij
      rw [List.getElem?_set_self hi] at hf
      exact Or.inl ⟨rfl, (Option.some.inj hf).symm⟩
    · rw [List.getElem?_set_ne hij] at hf
      exact Or.inr ⟨hij, hf⟩
  constructor
  · exact h.le.trans hg.length_le
  · intro j f hf
    rcases hcase hf with ⟨rfl, rfl⟩ | ⟨-, hf⟩
    · rw [hlen]; exact h.small _ _ he
    · exact h.small j f hf
  · rw [List.length_set, offset_set he hlen]
    exact h.producer
  · rw [offset_set he hlen]
    exact h.consumer
  · exact h.room
  · intro j f hj hf
    rcases hcase hf with ⟨rfl, -⟩ | ⟨-, hf⟩
    · omega
    · exact h.finished j f hj hf
  · intro j f hj hf
    rw [offset_set he hlen]
    rcases hcase hf with ⟨rfl, rfl⟩ | ⟨hij, hf⟩
    · exact hstored
    · exact h.stored_of_ne hci he hp hp' hj hf hij
  · exact taken_grows h hg rfl rfl rfl (Nat.le_refl _)

end Inv

/-! ### The collector keeps it -/

theorem load_mod (data : Bytes) (p n : ℕ) :
    load (2 ^ k) data (p % 2 ^ k) n = load (2 ^ k) data p n :=
  List.map_congr_left fun i _ => cell_mod i

/-- The collector loads the header of the record. -/
theorem Stored.loadLen_eq {data : Bytes} {p : ℕ} {e : Entry} (h : Stored k data p e) :
    loadLen k data (p &&& (2 ^ k - 1)) = e.word := by
  have hload := h.word.load
  have hlt : e.word.toNat < 256 ^ 4 := e.word.isLt
  rw [length_toBytes] at hload
  rw [loadLen, and_mask, load_mod, hload, ofBytes_toBytes hlt, BitVec.ofNat_toNat,
    BitVec.setWidth_eq]

/-- The next byte of the sample. -/
theorem Stored.cell_eq {data : Bytes} {p : ℕ} {e : Entry} (h : Stored k data p e) {got : List UInt8}
    (hgot : got <+: e.bytes) (hlt : got.length < e.bytes.length) :
    got ++ [cell (2 ^ k) data (p % 2 ^ k + hdrSz + got.length)] <+: e.bytes := by
  have hbyte := h.bytes got.length _ (List.getElem?_eq_getElem hlt)
  have htake := List.prefix_iff_eq_take.mp hgot
  rw [Nat.add_assoc, cell_mod, ← Nat.add_assoc, hbyte]
  nth_rewrite 1 [htake]
  rw [List.take_concat_get' _ _ hlt]
  exact List.take_prefix _ _

namespace Inv

variable {s s' : State} {c : ℕ} {e : Entry}

/-- A step that changes nothing but where the collector is. -/
theorem advance (h : Inv k s c) {pc : Pc} {delivered : List (List UInt8)}
    (ht : Taken k { s with pc := pc, delivered := delivered } c pc) :
    Inv k { s with pc := pc, delivered := delivered } c :=
  { h with taken := ht }

/-- A step that releases record `c`. -/
theorem released (h : Inv k s c) {pc : Pc} {p : ℕ} (he : s.log[c]? = some e)
    (hb : e.progress ≠ .busy) (hp : p = offset s.log (c + 1))
    (ht : Taken k { s with ring := { s.ring with consumerPos := p }, pc := pc } (c + 1) pc) :
    Inv k { s with ring := { s.ring with consumerPos := p }, pc := pc } (c + 1) where
  le := (List.getElem?_eq_some_iff.mp he).1
  small := h.small
  producer := h.producer
  consumer := hp
  room := by
    have hle : s.ring.consumerPos ≤ p := by
      rw [h.consumer, hp]; exact offset_mono (Nat.le_succ c)
    exact h.room.trans_le (Nat.add_le_add_right hle _)
  finished i f hi hf := by
    rcases Nat.lt_or_ge i c with hlt | hge
    · exact h.finished i f hlt hf
    · obtain rfl : i = c := by omega
      rw [he] at hf
      exact Option.some.inj hf ▸ hb
  stored i f hi hf := h.stored i f (by omega) hf
  taken := ht

/-- The record that the collector is at. -/
theorem exists_next (h : Inv k s c) {l : Locals} (hpos : l.consPos = s.ring.consumerPos)
    (hprod : l.prodPos ≤ s.ring.producerPos) (hlt : l.consPos < l.prodPos) :
    ∃ e, s.log[c]? = some e ∧ l.consPos = offset s.log c ∧
      loadLen k s.ring.data (l.consPos &&& (2 ^ k - 1)) = e.word := by
  have hc : c < s.log.length := by
    refine lt_of_le_of_ne h.le fun heq => ?_
    have hprod' := h.producer
    rw [← heq, ← h.consumer] at hprod'
    omega
  have he : s.log[c]? = some s.log[c] := List.getElem?_eq_getElem hc
  have hpos' := hpos.trans h.consumer
  refine ⟨_, he, hpos', ?_⟩
  rw [hpos']
  exact (h.stored c _ (Nat.le_refl c) he).loadLen_eq

theorem consume_inner (h : Inv k s c) (err : ℤ) {l : Locals} (hs : s.pc = .inner l) :
    Inv k (consume k err s) c := by
  have ht := h.taken
  rw [hs] at ht
  obtain ⟨hdel, hpos, hprod⟩ := ht
  rw [consume, hs]
  by_cases hlt : l.consPos < l.prodPos
  · obtain ⟨e, he, hoff, hload⟩ := h.exists_next hpos hprod hlt
    have hsmall := h.small c e he
    have hnext : l.consPos + roundupLen e.word = offset s.log (c + 1) := by
      rw [hoff, offset_succ he, Entry.word, roundupLen_headerWord hsmall]
      rfl
    have hmask : l.consPos &&& (2 ^ k - 1) = offset s.log c % 2 ^ k := by rw [hoff, and_mask]
    simp only [if_pos hlt, hload]
    by_cases hbusy : e.word &&& busyBit = 0
    · have hb : e.progress ≠ .busy := (headerWord_busy_iff hsmall _).mp hbusy
      rw [if_neg (not_not_intro hbusy)]
      by_cases hdisc : e.word &&& discardBit = 0
      · have hd : e.progress ≠ .discarded := (headerWord_discard_iff hsmall _).mp hdisc
        have hcom : e.progress = .committed := by
          cases hp : e.progress with
          | busy => exact absurd hp hb
          | committed => rfl
          | discarded => exact absurd hp hd
        rw [if_pos hdisc]
        exact h.advance ⟨e, he, hcom, hdel, hnext, hprod, by rw [hmask], rfl, List.nil_prefix⟩
      · have hd : e.progress ≠ .committed := by
          intro hp
          exact hdisc ((headerWord_discard_iff hsmall _).mpr (by rw [hp]; decide))
        rw [if_neg hdisc]
        have hnone : samples [e] = [] := by simp [samples, hd]
        refine h.advance ⟨e, he, hb, ?_, hnext, hprod⟩
        rw [samples_take_succ he, hnone, List.append_nil]
        exact hdel
    · rw [if_pos hbusy]
      exact h.advance hdel
  · simp only [if_neg hlt]
    split_ifs
    · exact h.advance ⟨hdel, hpos⟩
    · exact h.advance hdel

theorem consume_callback (h : Inv k s c) (err : ℤ) {l : Locals} {sample : ℕ} {len : BitVec 32}
    {got : List UInt8} (hs : s.pc = .callback l sample len got) :
    Inv k (consume k err s) c ∧ s.delivered <+: (consume k err s).delivered := by
  have ht := h.taken
  rw [hs] at ht
  obtain ⟨e, he, hcom, hdel, hpos, hprod, rfl, rfl, hgot⟩ := ht
  have hword : e.word.toNat = e.bytes.length := by
    rw [Entry.word, toNat_headerWord (h.small c e he), hcom]
    rfl
  rw [consume, hs]
  simp only [hword]
  by_cases hlt : got.length < e.bytes.length
  · rw [if_pos hlt]
    have hread := (h.stored c e (Nat.le_refl c) he).cell_eq hgot hlt
    exact ⟨h.advance ⟨e, he, hcom, hdel, hpos, hprod, rfl, rfl, hread⟩, List.prefix_rfl⟩
  · -- the sample is read
    have hall : got = e.bytes := hgot.eq_of_length (by have := hgot.length_le; omega)
    have hone : samples [e] = [e.bytes] := by simp [samples, hcom]
    have hb : e.progress ≠ .busy := by rw [hcom]; decide
    have hdel' : s.delivered ++ [got] = samples (s.log.take (c + 1)) := by
      rw [samples_take_succ he, hone, hdel, hall]
    rw [if_neg hlt]
    split_ifs
    · exact ⟨h.advance ⟨e, he, hb, hdel', hpos⟩, List.prefix_append _ _⟩
    · exact ⟨h.advance ⟨e, he, hb, hdel', hpos, hprod⟩, List.prefix_append _ _⟩

/-- **A step of the collector** keeps the invariant and takes nothing back. -/
theorem consume (h : Inv k s c) (err : ℤ) : ∃ c', c ≤ c' ∧ Inv k (Ringbuf.consume k err s) c' ∧
    s.delivered <+: (Ringbuf.consume k err s).delivered ∧
      (Ringbuf.consume k err s).log = s.log := by
  have ht := h.taken
  cases hs : s.pc with
  | start n =>
    rw [hs] at ht
    refine ⟨c, Nat.le_refl c, ?_⟩
    rw [Ringbuf.consume, hs]
    exact ⟨h.advance ⟨ht, rfl⟩, List.prefix_rfl, rfl⟩
  | outer l =>
    rw [hs] at ht
    refine ⟨c, Nat.le_refl c, ?_⟩
    rw [Ringbuf.consume, hs]
    exact ⟨h.advance ⟨ht.1, ht.2, Nat.le_refl _⟩, List.prefix_rfl, rfl⟩
  | inner l =>
    refine ⟨c, Nat.le_refl c, h.consume_inner err hs, ?_⟩
    rw [Ringbuf.consume, hs]
    simp only
    split_ifs <;> exact ⟨List.prefix_rfl, rfl⟩
  | callback l sample len got =>
    obtain ⟨hinv, hpre⟩ := h.consume_callback err hs
    refine ⟨c, Nat.le_refl c, hinv, hpre, ?_⟩
    rw [Ringbuf.consume, hs]
    simp only
    split_ifs <;> rfl
  | release l =>
    rw [hs] at ht
    obtain ⟨e, he, hb, hdel, hpos, hprod⟩ := ht
    refine ⟨c + 1, Nat.le_succ c, ?_⟩
    rw [Ringbuf.consume, hs]
    refine ⟨h.released he hb hpos ?_, List.prefix_rfl, rfl⟩
    split_ifs
    · exact hdel
    · exact ⟨hdel, rfl, hprod⟩
  | bail l err' =>
    rw [hs] at ht
    obtain ⟨e, he, hb, hdel, hpos⟩ := ht
    refine ⟨c + 1, Nat.le_succ c, ?_⟩
    rw [Ringbuf.consume, hs]
    exact ⟨h.released he hb hpos hdel, List.prefix_rfl, rfl⟩
  | done r =>
    refine ⟨c, Nat.le_refl c, ?_⟩
    rw [Ringbuf.consume, hs]
    exact ⟨h, List.prefix_rfl, rfl⟩

end Inv

end Invariant

/-! ### Steps and runs -/

section Runs
variable {k : ℕ} {s s' : State} {c : ℕ}

theorem busyEntry_eq_some_iff {i : ℕ} {e : Entry} :
    busyEntry s i = some e ↔ s.log[i]? = some e ∧ e.progress = .busy := by
  rw [busyEntry, Option.filter_eq_some_iff, decide_eq_true_iff]

theorem Inv.write (h : Inv k s c) {i j : ℕ} {e : Entry} {xs : List UInt8}
    (he : s.log[i]? = some e) (hb : e.progress = .busy) (hj : j + xs.length ≤ e.bytes.length) :
    Inv k (write k s i e j xs) c ∧ Grows s.log (Ringbuf.write k s i e j xs).log := by
  have hlen : (patch e.bytes j xs).length = e.bytes.length := length_patch hj
  have htot := total_ge e
  have hend := h.place_le he
  have hbegin := h.place_ge (h.le_of_busy he hb)
  have hroom := h.room
  obtain ⟨hword, hbytes⟩ := h.stored i e (h.le_of_busy he hb) he
  refine ⟨h.change _ he hb hlen (by omega) (by omega) ⟨?_, ?_⟩, Grows.set he hb hlen⟩
  · have hsame : ({ e with bytes := patch e.bytes j xs } : Entry).word = e.word := by
      rw [Entry.word, hlen, Entry.word]
    rw [hsame]
    refine hword.store (Or.inl ?_)
    rw [length_toBytes]
    unfold hdrSz at *
    omega
  · exact hbytes.patch hj (by omega)

theorem Inv.commit (h : Inv k s c) {i : ℕ} {e : Entry} (he : s.log[i]? = some e)
    (hb : e.progress = .busy) (progress : Progress) :
    Inv k (commit k s i e progress) c ∧ Grows s.log (Ringbuf.commit k s i e progress).log := by
  have htot := total_ge e
  have hend := h.place_le he
  have hbegin := h.place_ge (h.le_of_busy he hb)
  have hroom := h.room
  obtain ⟨-, hbytes⟩ := h.stored i e (h.le_of_busy he hb) he
  have hfour : (toBytes 4 (headerWord e.bytes.length progress).toNat).length = 4 :=
    length_toBytes _ _
  unfold hdrSz at htot
  refine ⟨h.change { e with progress := progress } he hb rfl (Nat.le_refl _)
    (by omega) ⟨?_, ?_⟩, Grows.set he hb rfl⟩
  · exact holds_store (by omega)
  · refine hbytes.store (Or.inr ?_)
    rw [hfour]
    unfold hdrSz
    omega

/-- **Every step keeps the invariant**, takes nothing back, and changes busy records only. -/
theorem Inv.step (h : Inv k s c) {a : Act} (hs : step k s a = some s') : ∃ c', c ≤ c' ∧
    Inv k s' c' ∧ s.delivered <+: s'.delivered ∧ Grows s.log s'.log := by
  cases a with
  | reserve len pgOff =>
    simp only [Ringbuf.step] at hs
    split_ifs at hs with hr
    obtain rfl := Option.some.inj hs
    exact ⟨c, Nat.le_refl c, (h.reserve hr).1, List.prefix_rfl, (h.reserve hr).2⟩
  | write i j xs =>
    obtain ⟨e, he, hs⟩ := Option.bind_eq_some_iff.mp hs
    split_ifs at hs with hj
    obtain rfl := Option.some.inj hs
    obtain ⟨he, hb⟩ := busyEntry_eq_some_iff.mp he
    exact ⟨c, Nat.le_refl c, (h.write he hb hj).1, List.prefix_rfl, (h.write he hb hj).2⟩
  | submit i =>
    obtain ⟨e, he, rfl⟩ := Option.map_eq_some_iff.mp hs
    obtain ⟨he, hb⟩ := busyEntry_eq_some_iff.mp he
    exact ⟨c, Nat.le_refl c, (h.commit he hb _).1, List.prefix_rfl, (h.commit he hb _).2⟩
  | discard i =>
    obtain ⟨e, he, rfl⟩ := Option.map_eq_some_iff.mp hs
    obtain ⟨he, hb⟩ := busyEntry_eq_some_iff.mp he
    exact ⟨c, Nat.le_refl c, (h.commit he hb _).1, List.prefix_rfl, (h.commit he hb _).2⟩
  | poll n =>
    have ht := h.taken
    simp only [Ringbuf.step] at hs
    cases hpc : s.pc with
    | done r =>
      rw [hpc] at hs ht
      obtain rfl := Option.some.inj hs
      exact ⟨c, Nat.le_refl c, h.advance ht, List.prefix_rfl, Grows.refl _⟩
    | _ => rw [hpc] at hs; cases hs
  | consume err =>
    obtain rfl := Option.some.inj hs
    obtain ⟨c', hc, hinv, hpre, hlog⟩ := h.consume err
    exact ⟨c', hc, hinv, hpre, hlog ▸ Grows.refl _⟩

theorem Inv.run : ∀ {acts : List Act} {s s' : State} {c : ℕ}, Inv k s c →
    run k s acts = some s' → ∃ c', c ≤ c' ∧ Inv k s' c' ∧ s.delivered <+: s'.delivered ∧
      Grows s.log s'.log
  | [], s, s', c, h, hr => by
    obtain rfl := Option.some.inj hr
    exact ⟨c, Nat.le_refl c, h, List.prefix_rfl, Grows.refl _⟩
  | a :: acts, s, s', c, h, hr => by
    obtain ⟨t, ht, hr⟩ := Option.bind_eq_some_iff.mp hr
    obtain ⟨c₁, hc₁, hinv₁, hpre₁, hg₁⟩ := h.step ht
    obtain ⟨c₂, hc₂, hinv₂, hpre₂, hg₂⟩ := Inv.run hinv₁ hr
    exact ⟨c₂, hc₁.trans hc₂, hinv₂, hpre₁.trans hpre₂, hg₁.trans hg₂⟩

/-- What the callback got are the samples of a prefix of the log. -/
theorem Inv.exists_delivered (h : Inv k s c) : ∃ d ≤ s.log.length, c ≤ d ∧
    s.delivered = samples (s.log.take d) ∧
      ∀ (i : ℕ) (e : Entry), i < d → s.log[i]? = some e → e.progress ≠ .busy := by
  have ht := h.taken
  have hsucc : ∀ e : Entry, s.log[c]? = some e → e.progress ≠ .busy →
      ∀ (i : ℕ) (f : Entry), i < c + 1 → s.log[i]? = some f → f.progress ≠ .busy := by
    intro e he hb i f hi hf
    rcases Nat.lt_succ_iff_lt_or_eq.mp hi with hlt | rfl
    · exact h.finished i f hlt hf
    · rw [he] at hf
      exact Option.some.inj hf ▸ hb
  cases hs : s.pc with
  | start n => rw [hs] at ht; exact ⟨c, h.le, Nat.le_refl c, ht, h.finished⟩
  | done r => rw [hs] at ht; exact ⟨c, h.le, Nat.le_refl c, ht, h.finished⟩
  | outer l => rw [hs] at ht; exact ⟨c, h.le, Nat.le_refl c, ht.1, h.finished⟩
  | inner l => rw [hs] at ht; exact ⟨c, h.le, Nat.le_refl c, ht.1, h.finished⟩
  | callback l sample len got =>
    rw [hs] at ht
    obtain ⟨e, -, -, hdel, -⟩ := ht
    exact ⟨c, h.le, Nat.le_refl c, hdel, h.finished⟩
  | release l =>
    rw [hs] at ht
    obtain ⟨e, he, hb, hdel, -⟩ := ht
    exact ⟨c + 1, (List.getElem?_eq_some_iff.mp he).1, Nat.le_succ c, hdel, hsucc e he hb⟩
  | bail l err =>
    rw [hs] at ht
    obtain ⟨e, he, hb, hdel, -⟩ := ht
    exact ⟨c + 1, (List.getElem?_eq_some_iff.mp he).1, Nat.le_succ c, hdel, hsucc e he hb⟩

/-- **The ring buffer is safe in every interleaving.** What the callback got are the submitted
records of a prefix of the log, in the order of their reservation, each once and with the bytes that
its owner had written when he submitted it; none of that prefix is busy. The records that are not
released are all in the memory, and whatever happens next takes nothing back. -/
theorem delivered_of_run {data : Bytes} {acts : List Act} (hr : run k (init data) acts = some s) :
    (∃ d ≤ s.log.length, s.ring.consumerPos ≤ offset s.log d ∧
        s.delivered = samples (s.log.take d) ∧
          ∀ (i : ℕ) (e : Entry), i < d → s.log[i]? = some e → e.progress ≠ .busy) ∧
      (∀ (i : ℕ) (e : Entry), s.log[i]? = some e → s.ring.consumerPos ≤ offset s.log i →
        Stored k s.ring.data (offset s.log i) e) ∧
      s.ring.producerPos < s.ring.consumerPos + 2 ^ k ∧
      ∀ acts' s', run k s acts' = some s' →
        s.delivered <+: s'.delivered ∧ Grows s.log s'.log := by
  obtain ⟨c, -, h, -, -⟩ := (inv_init k data).run hr
  obtain ⟨d, hd, hcd, hdel, hdone⟩ := h.exists_delivered
  refine ⟨⟨d, hd, ?_, hdel, hdone⟩, fun i e he hpos => ?_, h.room, fun acts' s' hr' => ?_⟩
  · rw [h.consumer]
    exact offset_mono hcd
  · refine h.stored i e ?_ he
    by_contra hlt
    have hend := offset_add_total_le he (show i < c by omega)
    have htot := total_ge e
    rw [h.consumer] at hpos
    unfold hdrSz at htot
    omega
  · obtain ⟨-, -, -, hpre, hg⟩ := h.run hr'
    exact ⟨hpre, hg⟩

/-- Two producers: the second record is submitted while the first one is busy, the collector waits
for the first, and the third record lies over the end of the memory. -/
def twoProducers : List Act :=
  [.reserve 12 7, .reserve 4 9, .write 1 0 [5, 6, 7, 8], .submit 1, .poll 9, .consume 0, .consume 0,
    .consume 0, .write 0 8 [3, 3, 3, 3], .submit 0, .poll 9] ++ List.replicate 28 (.consume 0) ++
  [.reserve 20 1, .write 2 0 (List.replicate 20 1), .submit 2, .poll 9] ++
    List.replicate 28 (.consume 0)

theorem delivered_twoProducers : ∃ s, run 6 (init fun _ => 0) twoProducers = some s ∧
    s.delivered = [[0, 0, 0, 0, 0, 0, 0, 0, 3, 3, 3, 3], [5, 6, 7, 8], List.replicate 20 1] ∧
      ∃ d ≤ s.log.length, s.ring.consumerPos ≤ offset s.log d ∧
        s.delivered = samples (s.log.take d) ∧
          ∀ (i : ℕ) (e : Entry), i < d → s.log[i]? = some e → e.progress ≠ .busy := by
  have hsome : (run 6 (init fun _ => 0) twoProducers).map State.delivered =
      some [[0, 0, 0, 0, 0, 0, 0, 0, 3, 3, 3, 3], [5, 6, 7, 8], List.replicate 20 1] := by
    decide +kernel
  obtain ⟨s, hs, hdel⟩ := Option.map_eq_some_iff.mp hsome
  exact ⟨s, hs, hdel, (delivered_of_run hs).1⟩

end Runs

end Magm.Collect.Interleaving
