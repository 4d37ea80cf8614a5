/-
  Can the buffer cache run out of buffers?

  There are as many buffers as the log has blocks. Three operations that log `MAXOPBLOCKS` distinct
  blocks each pin all of them, and the commit finds no buffer for its first log block
  (`cache_exhausted`). With two blocks less for each operation there is always one:
  `no_buffers_unreachable`. What `begin_op` has reserved for an operation and is not used up covers
  the two buffers that the operation may hold.
-/
import Xv6.Bio.Coherence

namespace Xv6.Bio

open Lib Function List Finset Option
open Log (Block absorb headerBlock absorb_eq)

variable {T : Type} {n : ℕ}

/-- The calls of file-system operations: buffers are read within an operation, at most two at a
time, an operation logs at most `limit` distinct blocks, and it has released its buffers when it
ends. -/
def Admitted (limit : ℕ) (s : St T n) (e : T × Choice n) : Prop :=
  match e.2 with
  | .bread _ => s.ops e.1 ≠ none ∧ (s.held e.1).length < 2
  | .logWrite b =>
    match s.ops e.1 with
    | some seen => (s.buf b).blockno ∈ seen ∨ seen.length < limit
    | none => False
  | .endOp => s.held e.1 = []
  | _ => True

instance (limit : ℕ) (s : St T n) (e : T × Choice n) : Decidable (Admitted limit s e) :=
  match e with
  | (_, .bread _) => inferInstanceAs (Decidable (_ ∧ _))
  | (t, .logWrite b) => by
    show Decidable (match s.ops t with
      | some seen => (s.buf b).blockno ∈ seen ∨ seen.length < limit
      | none => False)
    cases s.ops t with
    | none => exact isFalse id
    | some seen => exact inferInstanceAs (Decidable (_ ∨ _))
  | (t, .endOp) => inferInstanceAs (Decidable (s.held t = []))
  | (_, .go) | (_, .modify _ _) | (_, .brelse _) | (_, .beginOp) => isTrue trivial

/-- What is left of an operation's reservation. -/
def budget : Option (List ℕ) → ℕ
  | some seen => maxOpBlocks - seen.length
  | none => 0

theorem budget_none : budget none = 0 := rfl

theorem budget_some (seen : List ℕ) : budget (some seen) = maxOpBlocks - seen.length := rfl

structure Room [Fintype T] (limit : ℕ) (s : St T n) : Prop where
  seen : ∀ u l, s.ops u = some l → l.length ≤ limit ∧ ∀ β ∈ l, β ∈ s.lh
  fit : s.lh.length + ∑ u, budget (s.ops u) ≤ logBlocks
  busy : ∀ u, s.ops u ≠ none → (s.held u).length + (s.pc u).refs.length ≤ 2
  idle : ∀ u, s.ops u = none → s.held u = [] ∧ ((s.pc u).commits = false → (s.pc u).refs = [])
  pinning : ∀ u b, (s.pc u).pinning = some b → ∃ l, s.ops u = some l ∧ l.length < limit
  commit : s.committing = true → s.lh.length + 2 ≤ logBlocks

theorem boot_room [Fintype T] (limit : ℕ) (d : ℕ → Block) : Room limit (boot T n d) where
  seen := nofun
  fit := by simp [boot, budget]
  busy := fun _ h => absurd rfl h
  idle := fun _ _ => ⟨rfl, fun _ => rfl⟩
  pinning := nofun
  commit := nofun

/-! ## Counting -/

theorem sum_count (l : List (Fin n)) : ∑ x, l.count x = l.length := by
  induction l with
  | nil => exact sum_const_zero
  | cons b l ih =>
    simp only [count_cons_eq, sum_add_distrib, ih, sum_ite_eq, mem_univ, if_true, length_cons]

section

variable {start limit : ℕ} {s : St T n} {t u : T} {o : Op n} {q pc : Pc n} {c : Choice n}

/-- The references a step takes and drops. -/
theorem Edge.load (he : Edge start s t pc o q) :
    (o.keeps (s.held t)).length + q.refs.length + (∑ x, o.drops x) =
      (s.held t).length + pc.refs.length + ∑ x, o.takes x := by
  simp only [← sum_count, ← sum_add_distrib]
  exact sum_congr rfl fun x _ => he.refs x

theorem sum_takes (h : (∃ b, o = .hit b) ∨ ∃ b β, o = .recycle b β) : ∑ x, o.takes x = 1 := by
  rcases h with ⟨b, rfl⟩ | ⟨b, β, rfl⟩ <;> simp [Op.takes]

theorem sum_takes_else (h : ¬((∃ b, o = .hit b) ∨ ∃ b β, o = .recycle b β)) :
    ∑ x, o.takes x = 0 := by
  refine Finset.sum_eq_zero fun x _ => ?_
  cases o with
  | hit b => exact absurd (.inl ⟨b, rfl⟩) h
  | recycle b β => exact absurd (.inr ⟨b, β, rfl⟩) h
  | _ => rfl

end

/-- All buffers are in use: each has a reference of a thread, or is pinned. -/
theorem Cache.in_use [Fintype T] [DecidableEq T] {start : ℕ} {s : St T n} (h : Cache start s)
    (hall : ∀ b, (s.buf b).refcnt ≠ 0) :
    n ≤ (∑ u, ((s.held u).length + (s.pc u).refs.length)) + s.pins.length := by
  have hrefs : ∑ b, s.refs b = ∑ u, ((s.held u).length + (s.pc u).refs.length) := by
    unfold St.refs
    rw [Finset.sum_comm]
    exact Finset.sum_congr rfl fun u _ => by rw [Finset.sum_add_distrib, sum_count, sum_count]
  -- the pinned buffers are for different blocks
  have hpins : (Finset.univ.filter fun b => s.pinned b ≠ 0).card ≤ s.pins.length := by
    refine le_trans ?_ (toFinset_card_le s.pins)
    have hmem : ∀ b, s.pinned b ≠ 0 → (s.buf b).dev = rootDev ∧ (s.buf b).blockno ∈ s.pins := by
      intro b hb
      unfold St.pinned at hb
      split at hb
      · exact ⟨by assumption, List.count_pos_iff.mp (Nat.pos_of_ne_zero hb)⟩
      · exact absurd rfl hb
    refine Finset.card_le_card_of_injOn (fun b => (s.buf b).blockno) (fun b hb => ?_)
      fun b hb c hc he => ?_
    · exact Finset.mem_coe.mpr (List.mem_toFinset.mpr (hmem b (Finset.mem_filter.mp hb).2).2)
    · exact h.uniq b c (hmem b (Finset.mem_filter.mp hb).2).1 (hmem c (Finset.mem_filter.mp hc).2).1
        he
  have hone : ∀ b, 1 ≤ s.refs b + if s.pinned b ≠ 0 then 1 else 0 := by
    intro b
    have h1 := h.refs b
    have h2 := hall b
    split <;> omega
  have hsum := Finset.sum_le_sum fun b (_ : b ∈ Finset.univ) => hone b
  rw [Finset.sum_add_distrib, hrefs, ← Finset.card_filter, Finset.sum_const, Finset.card_univ,
    Fintype.card_fin] at hsum
  simp only [smul_eq_mul, mul_one] at hsum
  omega

/-! ## The calls of an operation -/

section

variable [DecidableEq T] {start limit : ℕ} {s : St T n} {t u : T} {o : Op n} {q pc : Pc n}
  {c : Choice n} {b : Fin n}

/-- What `bget`, `log_write` and `end_op` are called for. -/
def Choice.ops (c : Choice n) (o : Op n) : Prop :=
  match o with
  | .hit _ | .recycle _ _ | .panic .noBuffers => ∃ β, c = .bread β
  | .absorb b => c = .logWrite b
  | .endOp _ => c = .endOp
  | _ => True

theorem edge_free (h : edge start s t .free c = some (o, q)) :
    c.ops o ∧ ∀ b, q.pinning = some b → c = .logWrite b := by
  cases c with
  | go => cases h
  | bread β =>
    have h : bget s β .user .free = (o, q) := some.inj h
    unfold bget at h
    split at h
    · cases h
      exact ⟨⟨β, rfl⟩, nofun⟩
    · split at h
      · cases h
        exact ⟨⟨β, rfl⟩, nofun⟩
      · cases h
        exact ⟨⟨β, rfl⟩, nofun⟩
  | modify b d =>
    unfold edge at h
    dsimp only at h
    split at h
    · cases h
      exact ⟨trivial, nofun⟩
    · cases h
  | logWrite b =>
    unfold edge at h
    dsimp only at h
    split at h
    · have h := some.inj h
      unfold logWrite at h
      split at h
      · cases h
        exact ⟨trivial, nofun⟩
      split at h
      · cases h
        exact ⟨trivial, nofun⟩
      split at h
      · cases h
        exact ⟨rfl, nofun⟩
      · cases h
        exact ⟨trivial, fun _ h => congrArg Choice.logWrite (some.inj h)⟩
    · cases h
  | brelse b =>
    unfold edge at h
    dsimp only at h
    split at h
    · split at h
      · cases h
        exact ⟨trivial, nofun⟩
      · cases h
        exact ⟨trivial, nofun⟩
    · cases h
  | beginOp =>
    unfold edge at h
    dsimp only at h
    split at h
    · unfold beginOp at h
      split at h
      · cases h
      split at h
      · cases h
      · cases h
        exact ⟨trivial, nofun⟩
    · cases h
  | endOp =>
    unfold edge at h
    dsimp only at h
    split at h
    · cases h
    have h := some.inj h
    unfold endOp at h
    split at h
    · cases h
      exact ⟨trivial, nofun⟩
    split at h
    · cases h
      refine ⟨rfl, fun _ h => ?_⟩
      unfold Bio.commit at h
      split at h <;> cases h
    · cases h
      exact ⟨rfl, nofun⟩

/-- A step of an admitted operation. -/
structure Modest (limit : ℕ) (s : St T n) (t : T) (o : Op n) (q : Pc n) : Prop where
  bread : ((∃ b, o = .hit b) ∨ ∃ b β, o = .recycle b β) →
    (s.pc t).commits = true ∨ s.ops t ≠ none ∧ (s.held t).length < 2 ∧ s.pc t = .free
  log : ∀ b, o = .absorb b ∨ o = .logAcquire ∧ q.pinning = some b →
    ∃ l, s.ops t = some l ∧ ((s.buf b).blockno ∈ l ∨ l.length < limit)
  done : ∀ d, o = .endOp d → s.held t = []
  stop : o = .panic .noBuffers → s.pc t = .free → s.ops t ≠ none ∧ (s.held t).length < 2

omit [DecidableEq T] in
theorem Admitted.log (h : Admitted limit s (t, .logWrite b)) :
    ∃ l, s.ops t = some l ∧ ((s.buf b).blockno ∈ l ∨ l.length < limit) := by
  unfold Admitted at h
  dsimp only at h
  split at h
  · exact ⟨_, by assumption, h⟩
  · exact h.elim

theorem Modest.of_admitted (hedge : edge start s t (s.pc t) c = some (o, q))
    (h : Admitted limit s (t, c)) :
    Modest limit s t o q := by
  have he := Edge.of_edge hedge
  have hfree : s.pc t = .free → c.ops o ∧ ∀ b, q.pinning = some b → c = .logWrite b := fun hpc => by
    rw [hpc] at hedge
    exact edge_free hedge
  refine ⟨fun ho => ?_, fun b ho => ?_, fun d ho => ?_, fun ho hpc => ?_⟩
  · have hcalls : s.pc t = .free ∨ (s.pc t).commits = true := by
      generalize s.pc t = pc at he
      rcases ho with ⟨b, rfl⟩ | ⟨b, β, rfl⟩
      · cases he with
        | hit b hc _ => cases hc <;> first | exact .inl rfl | exact .inr rfl
      · cases he with
        | recycle b hc _ _ => cases hc <;> first | exact .inl rfl | exact .inr rfl
    rcases hcalls with hpc | hc
    · have hch := (hfree hpc).1
      obtain ⟨β, rfl⟩ : ∃ β, c = .bread β := by
        rcases ho with ⟨b, rfl⟩ | ⟨b, β, rfl⟩ <;> exact hch
      exact .inr ⟨h.1, h.2, hpc⟩
    · exact .inl hc
  · have hpc : s.pc t = .free := by
      generalize s.pc t = pc at he
      rcases ho with rfl | ⟨rfl, _⟩ <;> cases he <;> rfl
    have hch := hfree hpc
    obtain rfl : c = .logWrite b := by
      rcases ho with rfl | ⟨_, hq⟩
      · exact hch.1
      · exact hch.2 b hq
    exact h.log
  · subst ho
    have hpc : s.pc t = .free := by
      generalize s.pc t = pc at he
      cases he <;> rfl
    obtain rfl : c = .endOp := (hfree hpc).1
    exact h
  · subst ho
    obtain ⟨β, rfl⟩ : ∃ β, c = .bread β := (hfree hpc).1
    exact h

variable [Fintype T]

/-- Nothing changes in the log, and no operation begins or ends. -/
theorem Room.next_quiet (h : Room limit s) (hk : Control s) (he : Edge start s t (s.pc t) o q)
    (hm : Modest limit s t o q)
    (hop : o.Quiet) : Room limit (o.next s t q) := by
  obtain ⟨_, h2, h3, h4, h5, h6⟩ := next_log (s := s) (t := t) (q := q) hop
  have hload := he.load
  have hcommits : q.commits = (s.pc t).commits :=
    he.commits (by rintro rfl; exact hop) (by rintro rfl; exact hop)
  refine ⟨fun u l hl => ?_, ?_, fun u hu => ?_, fun u hu => ?_, fun u b hb => ?_, ?_⟩
  · rw [h5] at hl
    rw [h2]
    exact h.seen u l hl
  · rw [h2, h5]
    exact h.fit
  · rw [h5] at hu
    by_cases hut : u = t
    · rw [hut] at hu ⊢
      rw [next_held_self, next_pc_self]
      by_cases ht : (∃ b, o = .hit b) ∨ ∃ b β, o = .recycle b β
      · rw [sum_takes ht] at hload
        rcases hm.bread ht with hc | ⟨_, hlt, hpc⟩
        · exact absurd (hk.no_ops (hk.commits t hc) t) hu
        · rw [hpc] at hload
          have : (Pc.free : Pc n).refs.length = 0 := rfl
          omega
      · rw [sum_takes_else ht] at hload
        have := h.busy t hu
        omega
    · rw [next_held_ne hut, next_pc_ne hut]
      exact h.busy u hu
  · rw [h5] at hu
    by_cases hut : u = t
    · rw [hut] at hu ⊢
      rw [next_held_self, next_pc_self]
      obtain ⟨h7, h8⟩ := h.idle t hu
      rw [h7] at hload ⊢
      cases hc : (s.pc t).commits with
      | false =>
        have hno : ¬((∃ b, o = .hit b) ∨ ∃ b β, o = .recycle b β) := fun ht => by
          rcases hm.bread ht with hc' | ⟨hu', _⟩
          · rw [hc] at hc'
            cases hc'
          · exact hu' hu
        rw [sum_takes_else hno, h8 hc] at hload
        have h0 : ([] : List (Fin n)).length = 0 := rfl
        exact ⟨eq_nil_of_length_eq_zero (by omega), fun _ => eq_nil_of_length_eq_zero (by omega)⟩
      | true =>
        refine ⟨?_, fun hq => ?_⟩
        · generalize s.pc t = pc at he hc
          cases he <;> first | rfl | cases hc
        · rw [hcommits, hc] at hq
          cases hq
    · rw [next_held_ne hut, next_pc_ne hut]
      exact h.idle u hu
  · rw [h5]
    by_cases hut : u = t
    · rw [hut, next_pc_self] at hb
      rcases he.pinning hb with ⟨hb, _⟩ | ⟨rfl, _⟩
      · rw [hut]
        exact h.pinning t b hb
      · exact hop.elim
    · rw [next_pc_ne hut] at hb
      exact h.pinning u b hb
  · rw [h2, h4]
    exact h.commit

/-- The reservations when one operation's changes. -/
theorem budget_update (ops : T → Option (List ℕ)) (v : Option (List ℕ)) :
    (∑ u, budget (update ops t v u)) + budget (ops t) = (∑ u, budget (ops u)) + budget v := by
  have h := sum_change (t := t) (f := fun u => budget (ops u))
    (g := fun u => budget (update ops t v u)) (fun u hu => by rw [update_of_ne hu])
  simpa only [update_self] using h

/-- `log_write` in an operation, with the log that results. -/
theorem Room.next_logged (h : Room limit s) (hl : limit + 2 ≤ maxOpBlocks)
    (ho : o = .absorb b ∨ o = .pin b) (hq : q = .free)
    (hops : (o.next s t q).ops = update s.ops t
      ((s.ops t).map fun l => St.note l (s.buf b).blockno))
    (hlh : (o.next s t q).lh = absorb (s.buf b).blockno s.lh)
    (hcommit : (o.next s t q).committing = false)
    {l : List ℕ} (hsome : s.ops t = some l) (hroom : (s.buf b).blockno ∈ l ∨ l.length < limit)
    (hpc : (s.pc t).refs = []) : Room limit (o.next s t q) := by
  have hself : update s.ops t ((s.ops t).map fun l => St.note l (s.buf b).blockno) t =
      some (St.note l (s.buf b).blockno) := by
    rw [update_self, hsome]
    rfl
  have hheld : ∀ u, (o.next s t q).held u = s.held u := by
    rcases ho with rfl | rfl <;> exact fun _ => rfl
  have hsub : ∀ β ∈ s.lh, β ∈ absorb (s.buf b).blockno s.lh := by
    intro β hβ
    rw [absorb_eq]
    split
    · exact hβ
    · exact mem_append_left _ hβ
  have hnew : (s.buf b).blockno ∈ absorb (s.buf b).blockno s.lh := by
    rw [absorb_eq]
    split
    · assumption
    · exact mem_append_right _ (List.mem_singleton.mpr rfl)
  have hnote : (St.note l (s.buf b).blockno).length ≤ limit := by
    have := (h.seen t l hsome).1
    unfold St.note
    split
    · exact this
    · rw [length_cons]
      rcases hroom with hm | hlt
      · contradiction
      · exact hlt
  refine ⟨fun u m hu => ?_, ?_, fun u hu => ?_, fun u hu => ?_, fun u c hp => ?_, fun hc' => ?_⟩
  · rw [hlh]
    rw [hops] at hu
    by_cases hut : u = t
    · rw [hut, hself] at hu
      obtain rfl := some.inj hu
      refine ⟨hnote, fun β hβ => ?_⟩
      unfold St.note at hβ
      split at hβ
      · exact hsub β ((h.seen t l hsome).2 β hβ)
      · rcases List.mem_cons.mp hβ with rfl | hβ
        · exact hnew
        · exact hsub β ((h.seen t l hsome).2 β hβ)
    · rw [update_of_ne hut] at hu
      exact ⟨(h.seen u m hu).1, fun β hβ => hsub β ((h.seen u m hu).2 β hβ)⟩
  · rw [hlh, hops]
    have hb := budget_update (t := t) s.ops ((s.ops t).map fun l => St.note l (s.buf b).blockno)
    have hfit := h.fit
    have hlen := (h.seen t l hsome).1
    rw [hsome] at hb
    simp only [map_some] at hb
    rw [hsome]
    simp only [map_some]
    -- a block that is new in the log is new for the operation
    rw [absorb_eq]
    split
    · have : budget (some (St.note l (s.buf b).blockno)) ≤ budget (some l) := by
        unfold budget St.note
        dsimp only
        split
        · exact Nat.le_refl _
        · rw [length_cons]
          omega
      omega
    · next hm =>
      rw [length_append]
      have hnl : (s.buf b).blockno ∉ l := fun hb => hm ((h.seen t l hsome).2 _ hb)
      have : budget (some (St.note l (s.buf b).blockno)) + 1 = budget (some l) := by
        unfold budget St.note
        dsimp only
        rw [if_neg hnl, length_cons]
        omega
      rw [length_singleton]
      omega
  · rw [hheld]
    by_cases hut : u = t
    · rw [hut, next_pc_self, hq]
      have := h.busy t (by rw [hsome]; exact nofun)
      rw [hpc] at this
      exact this
    · rw [next_pc_ne hut]
      rw [hops, update_of_ne hut] at hu
      exact h.busy u hu
  · rw [hops] at hu
    by_cases hut : u = t
    · rw [hut, hself] at hu
      cases hu
    · rw [update_of_ne hut] at hu
      rw [hheld, next_pc_ne hut]
      exact h.idle u hu
  · rw [hops]
    by_cases hut : u = t
    · rw [hut, next_pc_self, hq] at hp
      cases hp
    · rw [next_pc_ne hut] at hp
      rw [update_of_ne hut]
      exact h.pinning u c hp
  · rw [hcommit] at hc'
    cases hc'

theorem Room.next_logAcquire (h : Room limit s) (hpc : s.pc t = .free) {l : List ℕ}
    (hsome : s.ops t = some l)
    (hlt : l.length < limit) : Room limit (Op.logAcquire.next s t (.logPin b)) := by
  refine ⟨h.seen, h.fit, fun u hu => ?_, fun u hu => ?_, fun u c hp => ?_, h.commit⟩
  · by_cases hut : u = t
    · rw [hut, next_pc_self]
      have := h.busy t (by rw [hsome]; exact nofun)
      rw [hpc] at this
      exact this
    · rw [next_pc_ne hut]
      exact h.busy u hu
  · by_cases hut : u = t
    · have hu : s.ops u = none := hu
      rw [hut, hsome] at hu
      cases hu
    · rw [next_pc_ne hut]
      exact h.idle u hu
  · by_cases hut : u = t
    · rw [hut]
      exact ⟨l, hsome, hlt⟩
    · rw [next_pc_ne hut] at hp
      exact h.pinning u c hp

omit [DecidableEq T] in
/-- The operations' reservations are bounded by their number. -/
theorem budget_le (ops : T → Option (List ℕ)) :
    ((∑ u, budget (ops u) : ℕ) : ℤ) ≤
      (∑ u, if (ops u).isSome then (1 : ℤ) else 0) * maxOpBlocks := by
  rw [sum_mul, Nat.cast_sum]
  refine sum_le_sum fun u _ => ?_
  cases ops u with
  | none => exact Int.le_refl 0
  | some l =>
    exact_mod_cast Nat.sub_le _ _

theorem Room.next_beginOp (h : Room limit s) (hk : Control s) (hops : s.ops t = none)
    (hr : (s.lh.length : ℤ) + (s.outstanding + 1) * maxOpBlocks ≤ logBlocks) :
    Room limit (Op.beginOp.next s t .free) := by
  have hnext : (Op.beginOp.next s t .free).ops = update s.ops t (some []) := rfl
  refine ⟨fun u l hu => ?_, ?_, fun u hu => ?_, fun u hu => ?_, fun u c hp => ?_, h.commit⟩
  · rw [hnext] at hu
    by_cases hut : u = t
    · rw [hut, update_self] at hu
      obtain rfl := some.inj hu
      exact ⟨Nat.zero_le _, nofun⟩
    · rw [update_of_ne hut] at hu
      exact h.seen u l hu
  · rw [hnext]
    have hb := budget_update (t := t) s.ops (some [])
    have hle := budget_le s.ops
    have hout := hk.outs
    rw [hops, budget_none, budget_some, length_nil, Nat.sub_zero, Nat.add_zero] at hb
    rw [← hout] at hle
    show s.lh.length + _ ≤ logBlocks
    generalize ∑ u, budget (s.ops u) = m at hle hb
    rw [hb]
    zify
    linarith
  · by_cases hut : u = t
    · rw [hut, next_pc_self]
      have := (h.idle t hops).1
      show (s.held t).length + 0 ≤ 2
      rw [this]
      exact Nat.zero_le _
    · rw [next_pc_ne hut]
      rw [hnext, update_of_ne hut] at hu
      exact h.busy u hu
  · rw [hnext] at hu
    by_cases hut : u = t
    · rw [hut, update_self] at hu
      cases hu
    · rw [update_of_ne hut] at hu
      rw [next_pc_ne hut]
      exact h.idle u hu
  · rw [hnext]
    by_cases hut : u = t
    · rw [hut, next_pc_self] at hp
      cases hp
    · rw [next_pc_ne hut] at hp
      rw [update_of_ne hut]
      exact h.pinning u c hp

/-- `end_op`, which may go on to `commit`. -/
theorem Room.next_endOp (h : Room limit s) (hl : limit + 2 ≤ maxOpBlocks) (d : Bool)
    (hops : s.ops t ≠ none)
    (hheld : s.held t = []) (hq : q.refs = [])
    (hpin : q.pinning = none) : Room limit ((Op.endOp d).next s t q) := by
  have hnext : ((Op.endOp d).next s t q).ops = update s.ops t none := rfl
  obtain ⟨l, hsome⟩ := ne_none_iff_exists'.mp hops
  have hb := budget_update (t := t) s.ops none
  have hfit := h.fit
  have hlen := (h.seen t l hsome).1
  rw [hsome, budget_none, budget_some, Nat.add_zero] at hb
  refine ⟨fun u m hu => ?_, ?_, fun u hu => ?_, fun u hu => ?_, fun u c hp => ?_, fun _ => ?_⟩
  · rw [hnext] at hu
    by_cases hut : u = t
    · rw [hut, update_self] at hu
      cases hu
    · rw [update_of_ne hut] at hu
      exact h.seen u m hu
  · rw [hnext]
    show s.lh.length + _ ≤ logBlocks
    omega
  · rw [hnext] at hu
    by_cases hut : u = t
    · rw [hut, update_self] at hu
      exact absurd rfl hu
    · rw [update_of_ne hut] at hu
      rw [next_pc_ne hut]
      exact h.busy u hu
  · by_cases hut : u = t
    · rw [hut, next_pc_self]
      exact ⟨hheld, fun _ => hq⟩
    · rw [next_pc_ne hut]
      rw [hnext, update_of_ne hut] at hu
      exact h.idle u hu
  · by_cases hut : u = t
    · rw [hut, next_pc_self, hpin] at hp
      cases hp
    · rw [next_pc_ne hut] at hp
      rw [hnext, update_of_ne hut]
      exact h.pinning u c hp
  · show s.lh.length + 2 ≤ logBlocks
    omega

/-- The other steps of `commit`. -/
theorem Room.next_committer (h : Room limit s) (hk : Control s)
    (hct : (s.pc t).commits = true) (hlh : (o.next s t q).lh.length ≤ s.lh.length)
    (hops : (o.next s t q).ops = s.ops) (hheld : o.keeps (s.held t) = s.held t)
    (hq : q.commits = false → q.refs = []) (hpin : q.pinning = none)
    (hc : (o.next s t q).committing = true → s.committing = true) : Room limit (o.next s t q) := by
  have hnone := hk.no_ops (hk.commits t hct)
  refine ⟨fun u l hu => ?_, ?_, fun u hu => ?_, fun u hu => ?_, fun u c hp => ?_, fun hr => ?_⟩
  · rw [hops, hnone u] at hu
    cases hu
  · rw [hops]
    exact le_trans (Nat.add_le_add_right hlh _) h.fit
  · rw [hops] at hu
    exact absurd (hnone u) hu
  · by_cases hut : u = t
    · rw [hut, next_held_self, next_pc_self, hheld]
      exact ⟨(h.idle t (hnone t)).1, hq⟩
    · rw [next_held_ne hut, next_pc_ne hut]
      exact h.idle u (hnone u)
  · by_cases hut : u = t
    · rw [hut, next_pc_self, hpin] at hp
      cases hp
    · rw [next_pc_ne hut] at hp
      rw [hops]
      exact h.pinning u c hp
  · exact le_trans (Nat.add_le_add_right hlh _) (h.commit (hc hr))

theorem Room.next (h : Room limit s) (hl : limit + 2 ≤ maxOpBlocks) (hk : Control s)
    (he : Edge start s t (s.pc t) o q) (hm : Modest limit s t o q) : Room limit (o.next s t q) := by
  have hquiet : o.Quiet → Room limit (o.next s t q) := h.next_quiet hk he hm
  generalize hpc : s.pc t = pc at he
  cases he with
  | absorb b hb ha ho hm' =>
    obtain ⟨l, hsome, hroom⟩ := hm.log b (.inl rfl)
    exact h.next_logged hl (.inl rfl) rfl rfl rfl (hk.committing_of_outstanding ho) hsome hroom
      (by rw [hpc]; rfl)
  | logAcquire b hb ha hn ho hm' =>
    obtain ⟨l, hsome, hroom⟩ := hm.log b (.inr ⟨rfl, rfl⟩)
    exact h.next_logAcquire hpc hsome (hroom.resolve_left fun hb => hm' ((h.seen t l hsome).2 _ hb))
  | pin b =>
    have hp : (s.pc t).pinning = some b := by rw [hpc]; rfl
    obtain ⟨l, hsome, hlt⟩ := h.pinning t b hp
    have hself : ((s.setBuf b { s.buf b with refcnt := (s.buf b).refcnt + 1 }).buf b).blockno =
        (s.buf b).blockno := by
      show (update s.buf b _ b).blockno = _
      rw [update_self]
    refine h.next_logged hl (.inr rfl) rfl ?_ ?_ (hk.pinning t b hp).2.2 hsome (.inr hlt)
      (by rw [hpc]; rfl)
    · rw [← hself]
      rfl
    · rw [← hself]
      rfl
  | bunpin tail lbuf dbuf =>
    exact h.next_committer hk (by rw [hpc]; rfl) (Nat.le_refl _) rfl rfl nofun rfl fun h => h
  | beginOp h0 hcm hr => exact h.next_beginOp hk h0 hr
  | endOp h0 hcm ho => exact h.next_endOp hl false h0 (hm.done false rfl) rfl rfl
  | commit h0 hcm ho =>
    refine h.next_endOp hl true h0 (hm.done true rfl) (commit_refs s).1 ?_
    unfold Bio.commit
    split <;> rfl
  | clear tail ht =>
    exact h.next_committer hk (by rw [hpc]; rfl) (Nat.zero_le _) rfl rfl nofun rfl fun h => h
  | done =>
    exact h.next_committer hk (by rw [hpc]; rfl) (Nat.le_refl _) rfl rfl (fun _ => rfl) rfl nofun
  | _ => exact hquiet trivial

/-! ## `bget` finds a buffer -/

omit [DecidableEq T] in
/-- While operations run, what they hold and what they have logged leaves a buffer. -/
theorem Room.buffers_free (h : Room limit s) (hl : limit + 2 ≤ maxOpBlocks) (hk : Control s)
    (hops : s.ops t ≠ none) (hheld : (s.held t).length < 2) (hpc : s.pc t = .free) :
    (∑ u, ((s.held u).length + (s.pc u).refs.length)) + s.pins.length < logBlocks := by
  have hcommit : s.committing = false := by
    cases hc : s.committing with
    | false => rfl
    | true => exact absurd (hk.no_ops hc t) hops
  have hbudget : ∀ u, s.ops u ≠ none → 2 ≤ budget (s.ops u) := by
    intro u hu
    obtain ⟨l, hsome⟩ := ne_none_iff_exists'.mp hu
    have := (h.seen u l hsome).1
    rw [hsome, budget_some]
    omega
  have hsum : ∑ u, ((s.held u).length + (s.pc u).refs.length) < ∑ u, budget (s.ops u) := by
    refine sum_lt_sum (fun u _ => ?_) ⟨t, mem_univ t, ?_⟩
    · by_cases hu : s.ops u = none
      · obtain ⟨h1, h2⟩ := h.idle u hu
        rw [h1, h2 (hk.not_commits hcommit u)]
        exact Nat.zero_le _
      · exact (h.busy u hu).trans (hbudget u hu)
    · rw [hpc]
      exact Nat.lt_of_lt_of_le hheld (hbudget t hops)
  rw [hk.pins hcommit]
  have := h.fit
  omega

omit [DecidableEq T] in
/-- In `commit` no thread holds a buffer when a log block is read, and two buffers are not
    pinned. -/
theorem Room.buffers_commit (h : Room limit s) (hk : Control s) (hct : (s.pc t).commits = true)
    (hrefs : (s.pc t).refs = []) :
    (∑ u, ((s.held u).length + (s.pc u).refs.length)) + s.pins.length < logBlocks := by
  have hrun := hk.commits t hct
  have hzero : ∑ u, ((s.held u).length + (s.pc u).refs.length) = 0 := by
    refine sum_eq_zero fun u _ => ?_
    obtain ⟨h1, h2⟩ := h.idle u (hk.no_ops hrun u)
    rw [h1]
    by_cases hu : u = t
    · rw [hu, hrefs]
      rfl
    · rw [h2 (hk.other hct hu).1]
      rfl
  have hpins : s.pins.length ≤ s.lh.length := by
    rw [hk.unpinned t hct, length_drop]
    exact Nat.sub_le _ _
  have := h.commit hrun
  omega

/-- The block of a round is in the cache. -/
theorem Cache.round_cached (hc : Cache start s) (hk : Control s) {i : ℕ}
    (hi : (s.pc t).round = some i)
    (hu : (s.pc t).unpinned ≤ i) : s.cached (s.lh.getD i 0) ≠ none := by
  intro h0
  have hlt := hk.round t i hi
  have hmem : s.lh.getD i 0 ∈ s.pins := by
    rw [hk.unpinned t (Pc.commits_of_round hi), getD_eq_getElem _ _ hlt]
    exact List.mem_drop_iff_getElem.mpr ⟨i - (s.pc t).unpinned, by omega, by congr 1; omega⟩
  obtain ⟨b, h1, h2, _⟩ := hc.cached _ hmem
  exact hc.ring.cached_none h0 b h1 h2

/-- `bget` does not panic. -/
theorem Room.bget (h : Room limit s) (hl : limit + 2 ≤ maxOpBlocks) (hk : Control s)
    (hc : Cache start s)
    (hn : n = nbuf) {β : ℕ} {d : Cont n} (hcalls : Calls start s.lh (s.pc t) β d)
    (hmodest : s.pc t = .free → s.ops t ≠ none ∧ (s.held t).length < 2) (h0 : s.cached β = none) :
    s.recyclable ≠ none := by
  intro hr
  have huse := hc.in_use (hc.ring.recyclable_none hr)
  have hsize : n = logBlocks := hn
  have hlog : (s.pc t).commits = true → (s.pc t).refs ≠ [] := by
    intro hct hrefs
    have := h.buffers_commit hk hct hrefs
    omega
  generalize hpc : s.pc t = pc at hcalls
  cases hcalls with
  | user β =>
    obtain ⟨hops, hheld⟩ := hmodest hpc
    have := h.buffers_free hl hk hops hheld hpc
    omega
  | logTo tail hlt | head | insLog => exact hlog (by rw [hpc]; rfl) (by rw [hpc]; rfl)
  | logFrom tail dst =>
    exact hc.round_cached hk (t := t) (by rw [hpc]; rfl) (by rw [hpc]; exact Nat.zero_le _) h0
  | insHome tail lbuf =>
    exact hc.round_cached hk (t := t) (by rw [hpc]; rfl) (by rw [hpc]; exact Nat.le_refl _) h0

/-- What every step of admitted operations keeps. -/
structure Roomy (start limit : ℕ) (s : St T n) : Prop where
  control : Control s
  cache : Cache start s
  room : Room limit s
  panicked : s.panicked ≠ some .noBuffers

theorem boot_roomy (start limit : ℕ) (d : ℕ → Block) : Roomy start limit (boot T n d) :=
  ⟨boot_control d, boot_cache start d, boot_room limit d, nofun⟩

omit [Fintype T] in
theorem next_panicked (h : ∀ p, o ≠ .panic p) : (o.next s t q).panicked = s.panicked := by
  cases o with
  | drop b =>
    unfold Op.next Op.apply
    dsimp only
    split <;> rfl
  | panic p => exact absurd rfl (h p)
  | _ => rfl

theorem Roomy.step (h : Roomy start limit s) (hl : limit + 2 ≤ maxOpBlocks) (hn : n = nbuf)
    {e : T × Choice n}
    {s' : St T n} (hs : Where (Admitted limit) (Fires (step start)) s e s') :
    Roomy start limit s' := by
  obtain ⟨had, hs⟩ := hs
  obtain ⟨o, q, hedge, hen, rfl⟩ := step_edge hs
  have he := Edge.of_edge hedge
  have hm := Modest.of_admitted hedge had
  refine ⟨h.cache.next_control h.control he hen, h.cache.next h.control he hen,
    h.room.next hl h.control he hm, ?_⟩
  by_cases hp : ∃ p, o = .panic p
  · obtain ⟨p, rfl⟩ := hp
    intro hno
    obtain rfl : p = .noBuffers := some.inj hno
    have hfree := hm.stop rfl
    generalize hpc : s.pc e.1 = pc at he
    cases he with
    | noBuffers hc h0 hr => exact h.room.bget hl h.control h.cache hn (hpc ▸ hc) hfree h0 hr
    | panic pc p hp => exact hp rfl
  · rw [next_panicked fun p hop => hp ⟨p, hop⟩]
    exact h.panicked

/-- The buffer cache is not exhausted. In every run of admitted operations that log at most
`MAXOPBLOCKS - 2` distinct blocks each, with their commits, `bget` finds a buffer. -/
theorem no_buffers_unreachable {d : ℕ → Block} {es : List (T × Choice nbuf)} {s : St T nbuf}
    (h : Run (Where (Admitted (maxOpBlocks - 2)) (Fires (step start))) (boot T nbuf d) es s) :
    s.panicked ≠ some .noBuffers :=
  (h.inv_state (I := Roomy start (maxOpBlocks - 2)) (boot_roomy start _ d)
    fun _ _ _ hr hs => hr.step (by decide) rfl hs).panicked

end

/-- A thread reads a block into the next free buffer, logs it and releases it. -/
def logOne (t : Option Bool) (i : Fin nbuf) : List (Option Bool × Choice nbuf) :=
  [.bread (100 + i.val), .go, .go, .logWrite i, .go, .brelse i, .go].map (t, ·)

def threads : List (Option Bool) := [some false, some true, none]

/-- Three operations log `k` blocks each. -/
def threeOps (k : ℕ) : List (Option Bool × Choice nbuf) :=
  threads.map (·, .beginOp) ++
  ((List.finRange nbuf).take (3 * k)).flatMap (fun i => logOne (threads.getD (i.val / k) none) i) ++
  threads.map (·, .endOp)

theorem no_buffers_unreachable_three : ∃ s,
    Run (Where (Admitted (maxOpBlocks - 2)) (Fires (step 2))) (boot (Option Bool) nbuf fun _ _ => 0)
      (threeOps 8) s ∧
    s.lh.length = 24 ∧ s.committing = true ∧ s.panicked ≠ some .noBuffers := by
  have hex : (exec (guarded (Admitted (maxOpBlocks - 2)) (step 2))
    (boot (Option Bool) nbuf fun _ _ => 0) (threeOps 8)).any
      (fun s => decide (s.lh.length = 24 ∧ s.committing = true)) = true := by
    decide +kernel
  obtain ⟨s, hexec, hs⟩ := exec_any _ _ _ _ hex
  have hrun := run_where_of_exec hexec
  have hs := of_decide_eq_true hs
  exact ⟨s, hrun, hs.1, hs.2, no_buffers_unreachable hrun⟩

/-- Three operations that log `MAXOPBLOCKS` distinct blocks each pin every buffer, and the commit
panics. -/
theorem cache_exhausted : ∃ s,
    Run (Where (Admitted maxOpBlocks) (Fires (step 2))) (boot (Option Bool) nbuf fun _ _ => 0)
      (threeOps maxOpBlocks ++ [(none, .go)]) s ∧ s.panicked = some .noBuffers := by
  have hex : (exec (guarded (Admitted maxOpBlocks) (step 2)) (boot (Option Bool) nbuf fun _ _ => 0)
      (threeOps maxOpBlocks ++ [(none, .go)])).any
        (fun s => decide (s.panicked = some .noBuffers)) = true := by
    decide +kernel
  obtain ⟨s, hexec, hs⟩ := exec_any _ _ _ _ hex
  exact ⟨s, run_where_of_exec hexec, of_decide_eq_true hs⟩

end Xv6.Bio
