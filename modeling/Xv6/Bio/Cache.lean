/-
  The buffers: references, locks, blocks.

  `Cache` is the part of the invariant that looks at the buffers. `refcnt` counts the references of
  the threads and the pin of the log; a sleep-lock is held by the thread that has the buffer; a
  block is in one buffer; a pinned block is in the cache; and the buffers that `log.c` works with
  are those of the blocks it asked for.
-/
import Xv6.Bio.Control

namespace Xv6.Bio

open Lib Function List Option
open Log (Block absorb headerBlock absorb_eq)

variable {T : Type} {n : ℕ}

/-! ## What a step does to a buffer -/

/-- The thread that releases a sleep-lock holds it. -/
theorem Edge.unlocked {start : ℕ} {s : St T n} {t : T} {o : Op n} {pc q : Pc n} {b : Fin n}
    (he : Edge start s t pc o q) (h : o = .releasesleep b ∨ o = .release b) :
    (s.buf b).lock = some t := by
  rcases h with rfl | rfl
  · cases he with
    | releasesleep hr hl => exact hl
  · cases he with
    | release b hb hc hl => exact hl

/-- The buffer that an operation changes. -/
def Op.target : Op n → Option (Fin n)
  | .hit b | .recycle b _ | .acquiresleep b | .fill b | .hold b | .modify b _ | .move b _
  | .releasesleep b | .release b | .drop b | .pin b | .bunpin b => some b
  | _ => none

def Op.change (s : St T n) (t : T) (x : Buf T) : Op n → Buf T
  | .hit _ | .pin _ => { x with refcnt := x.refcnt + 1 }
  | .recycle _ β => { x with dev := rootDev, blockno := β, valid := false, refcnt := 1 }
  | .acquiresleep _ => { x with lock := some t }
  | .fill _ | .hold _ => x.fill s.disk
  | .modify _ d | .move _ d => { x with data := d }
  | .releasesleep _ | .release _ => { x with lock := none }
  | .drop _ | .bunpin _ => { x with refcnt := x.refcnt - 1 }
  | _ => x

theorem change_id {o : Op n} (s : St T n) (t : T) (x : Buf T) (h : ∀ b β, o ≠ .recycle b β) :
    (o.change s t x).dev = x.dev ∧ (o.change s t x).blockno = x.blockno := by
  cases o with
  | recycle b β => exact absurd rfl (h b β)
  | fill b | hold b =>
    show (x.fill s.disk).dev = _ ∧ (x.fill s.disk).blockno = _
    unfold Buf.fill
    split <;> exact ⟨rfl, rfl⟩
  | _ => exact ⟨rfl, rfl⟩

section

variable [DecidableEq T] {start : ℕ} {s : St T n} {t u : T} {o : Op n} {q : Pc n} {b c : Fin n}

theorem next_buf_ne (h : o.target ≠ some b) : (o.next s t q).buf b = s.buf b := by
  have hset : ∀ c x, o.target = some c → update s.buf c x b = s.buf b := by
    rintro c x hc
    refine update_of_ne ?_ ..
    rintro rfl
    exact h hc
  cases o with
  | drop c =>
    unfold Op.next Op.apply
    dsimp only
    split <;> exact hset c _ rfl
  | _ => first | rfl | exact hset _ _ rfl

theorem next_buf_self (h : o.target = some b) : (o.next s t q).buf b = o.change s t (s.buf b) := by
  cases o with
  | drop c =>
    obtain rfl := some.inj h
    unfold Op.next Op.apply
    dsimp only
    split <;> exact update_self ..
  | skip | bwrite c | absorb c | logAcquire | beginOp | endOp d | clear | commitDone
  | panic p => cases h
  | _ =>
    obtain rfl := some.inj h
    exact update_self ..

/-- A buffer keeps its block unless it is recycled. -/
theorem next_id (h : ∀ β, o ≠ .recycle b β) : ((o.next s t q).buf b).dev = (s.buf b).dev ∧
    ((o.next s t q).buf b).blockno = (s.buf b).blockno := by
  by_cases ht : o.target = some b
  · rw [next_buf_self ht]
    refine change_id s t _ ?_
    rintro c β rfl
    obtain rfl := some.inj ht
    exact h β rfl
  · rw [next_buf_ne ht]
    exact ⟨rfl, rfl⟩

theorem next_held_self : (o.next s t q).held t = o.keeps (s.held t) := by
  cases o with
  | drop c =>
    unfold Op.next Op.apply
    dsimp only
    split <;> rfl
  | hold c | release c => exact update_self ..
  | _ => rfl

theorem next_held_ne (hu : u ≠ t) : (o.next s t q).held u = s.held u := by
  cases o with
  | drop c =>
    unfold Op.next Op.apply
    dsimp only
    split <;> rfl
  | hold c | release c => exact update_of_ne hu ..
  | _ => rfl

end

/-! ## References -/

/-- The references that threads have to a buffer. -/
def St.refs [Fintype T] (s : St T n) (b : Fin n) : ℕ :=
  ∑ u, ((s.held u).count b + (s.pc u).refs.count b)

/-- The references that the log has to a buffer. -/
def St.pinned (s : St T n) (b : Fin n) : ℕ :=
  if (s.buf b).dev = rootDev then s.pins.count (s.buf b).blockno else 0

section

variable [Fintype T] {start : ℕ} {s : St T n} {t u : T} {o : Op n} {q : Pc n} {b c : Fin n}

theorem refs_pos (h : b ∈ s.held u ∨ b ∈ (s.pc u).refs) : 0 < s.refs b := by
  refine Nat.lt_of_lt_of_le ?_ (Finset.single_le_sum (fun _ _ => Nat.zero_le _) (Finset.mem_univ u))
  rcases h with h | h
  · exact Nat.add_pos_left (List.count_pos_iff.mpr h) _
  · exact Nat.add_pos_right _ (List.count_pos_iff.mpr h)

variable [DecidableEq T]

theorem next_refs (he : Edge start s t (s.pc t) o q) (b : Fin n) :
    (o.next s t q).refs b + o.drops b = s.refs b + o.takes b := by
  have hsum := sum_change (t := t) (f := fun u => (s.held u).count b + (s.pc u).refs.count b)
    (g := fun u => ((o.next s t q).held u).count b + ((o.next s t q).pc u).refs.count b)
    (fun u hu => by rw [next_held_ne hu, next_pc_ne hu])
  have hone := he.refs b
  simp only [next_held_self, next_pc_self] at hsum
  unfold St.refs
  omega

end

section

variable [DecidableEq T] {s : St T n} {t : T} {o : Op n} {q : Pc n} {b : Fin n}

theorem next_lock (h1 : o ≠ .acquiresleep b) (h2 : ¬(o = .releasesleep b ∨ o = .release b)) :
    ((o.next s t q).buf b).lock = (s.buf b).lock ∧ o.locks b = 0 ∧ o.unlocks b = 0 := by
  by_cases ht : o.target = some b
  · rw [next_buf_self ht]
    cases o with
    | fill c | hold c =>
      refine ⟨?_, rfl, rfl⟩
      show ((s.buf b).fill s.disk).lock = _
      unfold Buf.fill
      split <;> rfl
    | acquiresleep c => exact absurd (congrArg Op.acquiresleep (some.inj ht)) h1
    | releasesleep c => exact absurd (.inl (congrArg Op.releasesleep (some.inj ht))) h2
    | release c => exact absurd (.inr (congrArg Op.release (some.inj ht))) h2
    | _ => exact ⟨rfl, rfl, rfl⟩
  · rw [next_buf_ne ht]
    cases o with
    | acquiresleep c => exact ⟨rfl, if_neg fun h => ht (congrArg some h), rfl⟩
    | releasesleep c | release c => exact ⟨rfl, rfl, if_neg fun h => ht (congrArg some h)⟩
    | _ => exact ⟨rfl, rfl, rfl⟩

/-- A buffer becomes invalid only when it is recycled. -/
theorem next_valid (h : ∀ β, o ≠ .recycle b β)
    (hv : (s.buf b).valid = true ∨ o = .fill b ∨ o = .hold b) :
    ((o.next s t q).buf b).valid = true := by
  have hfill : ∀ x : Buf T, (x.fill s.disk).valid = true := by
    intro x
    unfold Buf.fill
    split
    · assumption
    · rfl
  by_cases ht : o.target = some b
  · rw [next_buf_self ht]
    cases o with
    | fill c | hold c => exact hfill _
    | recycle c β => exact absurd (congrArg (Op.recycle · β) (some.inj ht)) (h β)
    | _ => exact hv.elim (fun h => h) fun h => h.elim nofun nofun
  · rw [next_buf_ne ht]
    rcases hv with hv | rfl | rfl
    · exact hv
    · exact absurd rfl ht
    · exact absurd rfl ht

/-- What becomes of `changed`. -/
theorem next_changed (b : Fin n) (hb : (o.next s t q).changed b = true) :
    s.changed b = true ∨ ∃ d, o = .modify b d := by
  have hupd : ∀ c v, update s.changed c v b = true → s.changed b = true ∨ (c = b ∧ v = true) := by
    intro c v hv
    by_cases hc : b = c
    · rw [← hc, update_self] at hv
      exact .inr ⟨hc.symm, hv⟩
    · rw [update_of_ne hc] at hv
      exact .inl hv
  cases o with
  | drop c =>
    unfold Op.next Op.apply at hb
    dsimp only at hb
    split at hb <;> exact .inl hb
  | modify c d => exact (hupd c true hb).imp_right fun h => ⟨d, congrArg (Op.modify · d) h.1⟩
  | absorb c | pin c => exact (hupd c false hb).imp_right fun h => nomatch h.2
  | _ => exact .inl hb

theorem next_pins (hp : ∀ c, o ≠ .pin c) (hu : ∀ c, o ≠ .bunpin c) :
    (o.next s t q).pins = s.pins := by
  cases o with
  | drop c =>
    unfold Op.next Op.apply
    dsimp only
    split <;> rfl
  | pin c => exact absurd rfl (hp c)
  | bunpin c => exact absurd rfl (hu c)
  | _ => rfl

theorem next_pinned (hr : ∀ β, o ≠ .recycle b β) (hp : (o.next s t q).pins = s.pins) :
    (o.next s t q).pinned b = s.pinned b := by
  obtain ⟨h1, h2⟩ := next_id (s := s) (t := t) (q := q) hr
  unfold St.pinned
  rw [h1, h2, hp]

/-- Operations that do not touch `refcnt`. -/
def Op.Steady : Op n → Prop
  | .hit _ | .recycle _ _ | .drop _ | .pin _ | .bunpin _ => False
  | _ => True

theorem next_refcnt_steady (hop : o.Steady) : ((o.next s t q).buf b).refcnt = (s.buf b).refcnt := by
  by_cases ht : o.target = some b
  · rw [next_buf_self ht]
    cases o with
    | fill c | hold c =>
      show ((s.buf b).fill s.disk).refcnt = _
      unfold Buf.fill
      split <;> rfl
    | _ => first | rfl | exact hop.elim
  · rw [next_buf_ne ht]

end

/-! ## The loops of `bget` -/

/-- The list holds every buffer once. -/
def St.Ring (s : St T n) : Prop := ∃ l, s.list.Linked l ∧ ∀ b, b ∈ l

section

variable {s : St T n} {β : ℕ} {b : Fin n}

theorem St.Ring.length {l : List (Fin n)} (h : l.Nodup) : l.length < n + 1 := by
  have := h.length_le_card
  rw [Fintype.card_fin] at this
  omega

theorem St.Ring.cached_some (h : s.Ring) (hb : s.cached β = some b) :
    (s.buf b).dev = rootDev ∧ (s.buf b).blockno = β := by
  obtain ⟨l, hl, _⟩ := h
  unfold St.cached at hb
  rw [hl.scan_next _ (St.Ring.length hl.2)] at hb
  have hb := List.find?_some hb
  exact of_decide_eq_true hb

theorem St.Ring.cached_none (h : s.Ring) (hb : s.cached β = none) (b : Fin n)
    (hd : (s.buf b).dev = rootDev) : (s.buf b).blockno ≠ β := by
  obtain ⟨l, hl, hall⟩ := h
  unfold St.cached at hb
  rw [hl.scan_next _ (St.Ring.length hl.2)] at hb
  exact fun hβ => List.find?_eq_none.mp hb b (hall b) (decide_eq_true ⟨hd, hβ⟩)

theorem St.Ring.recyclable_some (h : s.Ring) (hb : s.recyclable = some b) :
    (s.buf b).refcnt = 0 := by
  obtain ⟨l, hl, _⟩ := h
  unfold St.recyclable at hb
  rw [hl.scan_prev _ (St.Ring.length hl.2)] at hb
  have hb := List.find?_some hb
  exact of_decide_eq_true hb

theorem St.Ring.recyclable_none (h : s.Ring) (hb : s.recyclable = none) (b : Fin n) :
    (s.buf b).refcnt ≠ 0 := by
  obtain ⟨l, hl, hall⟩ := h
  unfold St.recyclable at hb
  rw [hl.scan_prev _ (St.Ring.length hl.2)] at hb
  exact fun h0 => List.find?_eq_none.mp hb b (List.mem_reverse.mpr (hall b)) (decide_eq_true h0)

theorem binit_linked (n : ℕ) : (binit n).Linked (List.finRange n).reverse := by
  have h : ∀ (l m : List (Fin n)) (d : Dll (Fin n)), d.Linked m → (l.reverse ++ m).Nodup →
      (l.foldl Dll.pushFront d).Linked (l.reverse ++ m) := by
    intro l
    induction l with
    | nil => exact fun m d hd _ => hd
    | cons x l ih =>
      intro m d hd hn
      rw [reverse_cons, append_assoc] at hn ⊢
      refine ih (x :: m) _ (hd.pushFront fun hx => ?_) hn
      exact (List.nodup_cons.mp (List.nodup_append.mp hn).2.1).1 hx
  have := h (List.finRange n) [] .empty Dll.linked_empty
    (by rw [append_nil]; exact List.nodup_reverse.mpr (nodup_finRange n))
  rwa [append_nil] at this

end

/-! ## The invariant -/

structure Cache [Fintype T] [DecidableEq T] (start : ℕ) (s : St T n) : Prop where
  ring : s.Ring
  refs : ∀ b, (s.buf b).refcnt = s.refs b + s.pinned b
  locks : ∀ u b, (s.held u).count b + (s.pc u).locks.count b = if (s.buf b).lock = some u then
    1 else 0
  dev : ∀ b, 0 < s.refs b → (s.buf b).dev = rootDev
  uniq : ∀ b c, (s.buf b).dev = rootDev → (s.buf c).dev = rootDev →
    (s.buf b).blockno = (s.buf c).blockno → b = c
  names : ∀ u, ∀ y ∈ (s.pc u).names start s.lh, (s.buf y.1).blockno = y.2
  valid : ∀ u b, b ∈ s.held u ∨ b ∈ (s.pc u).ready → (s.buf b).valid = true
  changed : ∀ b, s.changed b = true → ∃ u, b ∈ s.held u
  pinning : ∀ u b, (s.pc u).pinning = some b →
    b ∈ s.held u ∧ ¬LogArea start (s.buf b).blockno ∧ (s.buf b).blockno ∉ s.lh
  area : ∀ β ∈ s.lh, ¬LogArea start β
  cached : ∀ β ∈ s.pins, ∃ b, (s.buf b).dev = rootDev ∧ (s.buf b).blockno = β ∧
    (s.buf b).valid = true

theorem boot_cache [Fintype T] [DecidableEq T] (start : ℕ) (d : ℕ → Block) :
    Cache start (boot T n d) where
  ring := ⟨_, binit_linked n, fun b => List.mem_reverse.mpr (mem_finRange b)⟩
  refs := fun b => by
    have h1 : (boot T n d).refs b = 0 := by simp [boot, St.refs, Pc.refs]
    have h2 : (boot T n d).pinned b = 0 := ite_self _
    rw [h1, h2]
    rfl
  locks := fun u b => rfl
  dev := fun b h => by simp [boot, St.refs, Pc.refs] at h
  uniq := fun b c h => (nomatch h)
  names := fun u y h => (nomatch h)
  valid := fun u b h => h.elim nofun nofun
  changed := fun b h => (nomatch h)
  pinning := fun u b h => (nomatch h)
  area := fun β h => (nomatch h)
  cached := fun β h => (nomatch h)

section

variable [Fintype T] [DecidableEq T] {start : ℕ} {s : St T n} {t u : T} {o : Op n} {q : Pc n}
  {b c : Fin n}

section

variable (h : Cache start s)

include h

/-- A buffer that is recycled is in nobody's hands. -/
theorem Cache.free (hb : s.recyclable = some b) : s.refs b = 0 ∧ s.pinned b = 0 := by
  have h0 := h.ring.recyclable_some hb
  have := h.refs b
  omega

theorem Cache.recycled (he : Edge start s t (s.pc t) o q) {β : ℕ}
    (hop : o = .recycle b β) : s.refs b = 0 ∧ s.pinned b = 0 ∧ ∀ c, (s.buf c).dev = rootDev →
      (s.buf c).blockno ≠ β := by
  subst hop
  generalize s.pc t = pc at he
  cases he with
  | recycle b hc h0 hr => exact ⟨(h.free hr).1, (h.free hr).2, h.ring.cached_none h0⟩

/-- A buffer with a reference keeps its block. -/
theorem Cache.keeps (he : Edge start s t (s.pc t) o q) (hb : 0 < (s.buf b).refcnt) :
    ((o.next s t q).buf b).dev = (s.buf b).dev ∧
    ((o.next s t q).buf b).blockno = (s.buf b).blockno := by
  refine next_id fun β hop => ?_
  obtain ⟨h1, h2, _⟩ := h.recycled he hop
  have := h.refs b
  omega

theorem Cache.refcnt_pos (hb : b ∈ s.held u ∨ b ∈ (s.pc u).refs) : 0 < (s.buf b).refcnt := by
  have := refs_pos hb
  have := h.refs b
  omega

theorem Cache.pinned_pos (hd : (s.buf b).dev = rootDev)
    (hb : (s.buf b).blockno ∈ s.pins) : 0 < (s.buf b).refcnt := by
  have h1 := h.refs b
  have h2 : 0 < s.pinned b := by
    rw [St.pinned, if_pos hd]
    exact List.count_pos_iff.mpr hb
  omega

theorem Cache.next_ring : (o.next s t q).Ring := by
  have hsame : (o.next s t q).list = s.list → (o.next s t q).Ring := fun hl => by
    obtain ⟨l, hlinked, hall⟩ := h.ring
    exact ⟨l, hl ▸ hlinked, hall⟩
  cases o with
  | drop b =>
    unfold Op.next Op.apply at hsame ⊢
    dsimp only at hsame ⊢
    split
    · obtain ⟨l, hlinked, hall⟩ := h.ring
      refine ⟨b :: l.erase b, hlinked.moveFront (hall b), fun c => ?_⟩
      by_cases hc : c = b
      · rw [hc]
        exact mem_cons_self
      · exact mem_cons_of_mem _ ((mem_erase_of_ne hc).mpr (hall c))
    · rename_i h0
      rw [if_neg h0] at hsame
      exact hsame rfl
  | _ => exact hsame rfl

theorem Cache.refs_steady (he : Edge start s t (s.pc t) o q) (hop : o.Steady) (b : Fin n) :
    ((o.next s t q).buf b).refcnt = (o.next s t q).refs b + (o.next s t q).pinned b := by
  have hR := next_refs he b
  have h0 : o.takes b = 0 ∧ o.drops b = 0 := by
    cases o <;> first | exact ⟨rfl, rfl⟩ | exact hop.elim
  rw [next_refcnt_steady hop, next_pinned (by rintro β rfl; exact hop)
    (next_pins (by rintro c rfl; exact hop) (by rintro c rfl; exact hop)), h.refs b]
  omega

theorem Cache.refs_hit (he : Edge start s t (s.pc t) (.hit c) q) (b : Fin n) :
    (((Op.hit c).next s t q).buf b).refcnt =
      ((Op.hit c).next s t q).refs b + ((Op.hit c).next s t q).pinned b := by
  have hR := next_refs he b
  simp only [Op.takes, Op.drops] at hR
  have hb := h.refs b
  rw [next_pinned (o := .hit c) (fun β h => nomatch h) rfl]
  split at hR
  · next hc =>
    rw [next_buf_self (o := .hit c) (congrArg some hc)]
    show (s.buf b).refcnt + 1 = _
    omega
  · next hc =>
    rw [next_buf_ne (o := .hit c) fun h => hc (some.inj h)]
    omega

theorem Cache.refs_recycle {β : ℕ} (he : Edge start s t (s.pc t) (.recycle c β) q) (b : Fin n) :
    (((Op.recycle c β).next s t q).buf b).refcnt =
      ((Op.recycle c β).next s t q).refs b + ((Op.recycle c β).next s t q).pinned b := by
  have hR := next_refs he b
  simp only [Op.takes, Op.drops] at hR
  have hb := h.refs b
  obtain ⟨h1, h2, h3⟩ := h.recycled he rfl
  by_cases hc : c = b
  · subst hc
    rw [if_pos rfl] at hR
    -- no buffer has the block, so it is not pinned
    have hpin : ((Op.recycle c β).next s t q).pinned c = 0 := by
      have hbuf := next_buf_self (o := .recycle c β) (s := s) (t := t) (q := q) rfl
      rw [St.pinned, hbuf]
      refine (if_pos rfl).trans (List.count_eq_zero.mpr fun hm => ?_)
      obtain ⟨d, hd, hβ, _⟩ := h.cached β hm
      exact h3 d hd hβ
    rw [hpin, next_buf_self (o := .recycle c β) rfl]
    show 1 = _ + 0
    omega
  · rw [if_neg hc] at hR
    rw [next_buf_ne (o := .recycle c β) (fun h => hc (some.inj h)), next_pinned ?_ rfl]
    · omega
    · rintro γ ⟨⟩
      exact hc rfl

theorem Cache.refs_drop (he : Edge start s t (s.pc t) (.drop c) q) (b : Fin n) :
    (((Op.drop c).next s t q).buf b).refcnt =
      ((Op.drop c).next s t q).refs b + ((Op.drop c).next s t q).pinned b := by
  have hR := next_refs he b
  simp only [Op.takes, Op.drops] at hR
  have hb := h.refs b
  rw [next_pinned (o := .drop c) (fun β h => nomatch h)
    (next_pins (fun c h => nomatch h) (fun c h => nomatch h))]
  split at hR
  · next hc =>
    rw [next_buf_self (o := .drop c) (congrArg some hc)]
    show (s.buf b).refcnt - 1 = _
    omega
  · next hc =>
    rw [next_buf_ne (o := .drop c) fun h => hc (some.inj h)]
    omega

theorem Cache.refs_pin (he : Edge start s t (s.pc t) (.pin c) q) (hd : (s.buf c).dev = rootDev)
    (b : Fin n) :
    (((Op.pin c).next s t q).buf b).refcnt =
      ((Op.pin c).next s t q).refs b + ((Op.pin c).next s t q).pinned b := by
  have hR := next_refs he b
  simp only [Op.takes, Op.drops] at hR
  have hb := h.refs b
  obtain ⟨h1, h2⟩ := next_id (o := .pin c) (s := s) (t := t) (q := q) (b := b) fun β h => nomatch h
  have hpins : ((Op.pin c).next s t q).pins = s.pins ++ [(s.buf c).blockno] := rfl
  have hpin : ((Op.pin c).next s t q).pinned b = s.pinned b + if c = b then 1 else 0 := by
    unfold St.pinned
    rw [h1, h2, hpins]
    by_cases hdb : (s.buf b).dev = rootDev
    · rw [if_pos hdb, if_pos hdb, count_append, count_singleton]
      by_cases hc : c = b
      · rw [hc]
        simp
      · rw [if_neg hc, if_neg]
        rw [beq_iff_eq]
        exact fun he => hc (h.uniq c b hd hdb he)
    · rw [if_neg hdb, if_neg hdb, if_neg]
      rintro rfl
      exact hdb hd
  rw [hpin]
  by_cases hc : c = b
  · rw [if_pos hc, next_buf_self (o := .pin c) (congrArg some hc)]
    show (s.buf b).refcnt + 1 = _
    omega
  · rw [if_neg hc, next_buf_ne (o := .pin c) fun h => hc (some.inj h)]
    omega

theorem Cache.refs_bunpin (he : Edge start s t (s.pc t) (.bunpin c) q)
    (hd : (s.buf c).dev = rootDev) (hp : (s.buf c).blockno ∈ s.pins) (b : Fin n) :
    (((Op.bunpin c).next s t q).buf b).refcnt =
      ((Op.bunpin c).next s t q).refs b + ((Op.bunpin c).next s t q).pinned b := by
  have hR := next_refs he b
  simp only [Op.takes, Op.drops] at hR
  have hb := h.refs b
  obtain ⟨h1, h2⟩ := next_id (o := .bunpin c) (s := s) (t := t) (q := q) (b := b) fun β h =>
    nomatch h
  have hpins : ((Op.bunpin c).next s t q).pins = s.pins.erase (s.buf c).blockno := rfl
  have hpin : ((Op.bunpin c).next s t q).pinned b + (if c = b then 1 else 0) = s.pinned b := by
    unfold St.pinned
    rw [h1, h2, hpins]
    by_cases hdb : (s.buf b).dev = rootDev
    · rw [if_pos hdb, if_pos hdb]
      by_cases hc : c = b
      · subst hc
        have := List.count_pos_iff.mpr hp
        rw [if_pos rfl, count_erase_self]
        omega
      · rw [if_neg hc, count_erase_of_ne fun he => hc (h.uniq c b hd hdb he.symm)]
        rfl
    · rw [if_neg hdb, if_neg hdb, if_neg]
      rintro rfl
      exact hdb hd
  split at hpin
  · next hc =>
    rw [next_buf_self (o := .bunpin c) (congrArg some hc)]
    show (s.buf b).refcnt - 1 = _
    omega
  · next hc =>
    rw [next_buf_ne (o := .bunpin c) fun h => hc (some.inj h)]
    omega

/-- The buffer that `install_trans` has written is that of its round, and pinned. -/
theorem Cache.installs (hk : Control s) {tail : ℕ} {lbuf dbuf : Fin n}
    (hpc : s.pc t = .insWritten tail lbuf dbuf) : (s.buf dbuf).dev = rootDev ∧
      (s.buf dbuf).blockno = s.lh.getD tail 0 ∧ (s.buf dbuf).blockno ∈ s.pins := by
  have hname := h.names t (dbuf, s.lh.getD tail 0) (by rw [hpc]; exact mem_cons_self)
  have hround := hk.round t tail (by rw [hpc]; rfl)
  have hpins := hk.unpinned t (by rw [hpc]; rfl)
  refine ⟨h.dev dbuf (refs_pos (u := t) (.inr (by rw [hpc]; exact mem_cons_self))), hname, ?_⟩
  rw [hname, hpins, hpc, show (Pc.insWritten tail lbuf dbuf).unpinned = tail from rfl,
    drop_eq_getElem_cons hround, getD_eq_getElem _ _ hround]
  exact mem_cons_self

theorem Cache.next_refs (hk : Control s) (he : Edge start s t (s.pc t) o q) (b : Fin n) :
    ((o.next s t q).buf b).refcnt = (o.next s t q).refs b + (o.next s t q).pinned b := by
  cases o with
  | hit c => exact h.refs_hit he b
  | recycle c β => exact h.refs_recycle he b
  | drop c => exact h.refs_drop he b
  | pin c =>
    refine h.refs_pin he ?_ b
    generalize hpc : s.pc t = pc at he
    cases he
    exact h.dev c (refs_pos (.inl (h.pinning t c (by rw [hpc]; rfl)).1))
  | bunpin c =>
    have hc : (s.buf c).dev = rootDev ∧ (s.buf c).blockno ∈ s.pins := by
      generalize hpc : s.pc t = pc at he
      cases he
      exact ⟨(h.installs hk hpc).1, (h.installs hk hpc).2.2⟩
    exact h.refs_bunpin he hc.1 hc.2 b
  | _ => exact h.refs_steady he trivial b

section

variable (he : Edge start s t (s.pc t) o q)

include he

theorem Cache.next_locks (hen : o.Enabled s)
    (u : T) (b : Fin n) : ((o.next s t q).held u).count b + ((o.next s t q).pc u).locks.count b =
      if ((o.next s t q).buf b).lock = some u then 1 else 0 := by
  have hold := h.locks u b
  -- the locks that `u` has: those of the old state, unless it is `u` that moves
  have hcount : ((o.next s t q).held u).count b + ((o.next s t q).pc u).locks.count b +
      (if u = t then o.unlocks b else 0) =
      (if (s.buf b).lock = some u then 1 else 0) + if u = t then o.locks b else 0 := by
    by_cases hu : u = t
    · rw [if_pos hu, if_pos hu, ← hold, hu, next_held_self, next_pc_self]
      exact he.locks b
    · rw [if_neg hu, if_neg hu, next_held_ne hu, next_pc_ne hu]
      exact congrArg (· + 0) hold
  by_cases hc : o = .acquiresleep b
  · subst hc
    have hnone : (s.buf b).lock = none := hen
    rw [next_buf_self rfl]
    show _ = if some t = some u then 1 else 0
    rw [hnone] at hcount
    simp only [Op.locks, Op.unlocks, if_true, reduceCtorEq, if_false] at hcount
    by_cases hu : u = t
    · rw [if_pos hu, if_pos hu] at hcount
      rw [if_pos (congrArg some hu.symm)]
      exact hcount
    · rw [if_neg hu, if_neg hu] at hcount
      rw [if_neg fun h => hu (some.inj h).symm]
      exact hcount
  by_cases hr : o = .releasesleep b ∨ o = .release b
  · have hlock := he.unlocked hr
    have hself : ((o.next s t q).buf b).lock = none ∧ o.locks b = 0 ∧ o.unlocks b = 1 := by
      rcases hr with rfl | rfl
      · exact ⟨congrArg Buf.lock (next_buf_self rfl), rfl, if_pos rfl⟩
      · exact ⟨congrArg Buf.lock (next_buf_self rfl), rfl, if_pos rfl⟩
    rw [hself.1, if_neg nofun]
    rw [hlock, hself.2.1, hself.2.2] at hcount
    by_cases hu : u = t
    · rw [if_pos hu, if_pos (congrArg some hu.symm), if_pos hu] at hcount
      omega
    · rw [if_neg hu, if_neg hu, if_neg fun h => hu (some.inj h).symm] at hcount
      exact hcount
  · obtain ⟨h1, h2, h3⟩ := next_lock (s := s) (t := t) (q := q) hc hr
    rw [h1]
    rw [h2, h3, ite_self] at hcount
    exact hcount

theorem Cache.next_dev (b : Fin n)
    (hb : 0 < (o.next s t q).refs b) : ((o.next s t q).buf b).dev = rootDev := by
  have hR := Bio.next_refs he b
  by_cases h0 : 0 < s.refs b
  · have hcnt := h.refs b
    rw [(h.keeps he (by omega)).1]
    exact h.dev b h0
  · have htake : 0 < o.takes b := by omega
    have hop : o = .hit b ∨ ∃ β, o = .recycle b β := by
      cases o with
      | hit c =>
        by_cases hc : c = b
        · exact .inl (congrArg Op.hit hc)
        · rw [show (Op.hit c).takes b = 0 from if_neg hc] at htake
          omega
      | recycle c β =>
        by_cases hc : c = b
        · exact .inr ⟨β, congrArg (Op.recycle · β) hc⟩
        · rw [show (Op.recycle c β).takes b = 0 from if_neg hc] at htake
          omega
      | _ => exact absurd htake (Nat.lt_irrefl 0)
    rcases hop with rfl | ⟨β, rfl⟩
    · rw [(next_id (o := .hit b) fun β h => nomatch h).1]
      generalize s.pc t = pc at he
      cases he with
      | hit b hc hh => exact (h.ring.cached_some hh).1
    · rw [next_buf_self rfl]
      rfl

theorem Cache.next_uniq (b c : Fin n)
    (hb : ((o.next s t q).buf b).dev = rootDev) (hc : ((o.next s t q).buf c).dev = rootDev)
    (heq : ((o.next s t q).buf b).blockno = ((o.next s t q).buf c).blockno) : b = c := by
  by_cases hr : ∃ d β, o = .recycle d β
  · obtain ⟨d, β, rfl⟩ := hr
    obtain ⟨_, _, hno⟩ := h.recycled he rfl
    have hself : ((Op.recycle d β).next s t q).buf d = _ := next_buf_self rfl
    have hother : ∀ e, e ≠ d → ((Op.recycle d β).next s t q).buf e = s.buf e := fun e hed =>
      next_buf_ne fun h => hed (some.inj h).symm
    by_cases hbd : b = d
    · by_cases hcd : c = d
      · rw [hbd, hcd]
      · rw [hother c hcd] at hc heq
        rw [hbd, hself] at heq
        exact absurd heq.symm (hno c hc)
    · rw [hother b hbd] at hb heq
      by_cases hcd : c = d
      · rw [hcd, hself] at heq
        exact absurd heq (hno b hb)
      · rw [hother c hcd] at hc heq
        exact h.uniq b c hb hc heq
  · have hid : ∀ e, ((o.next s t q).buf e).dev = (s.buf e).dev ∧
        ((o.next s t q).buf e).blockno = (s.buf e).blockno := fun e =>
      next_id fun β hop => hr ⟨e, β, hop⟩
    rw [(hid b).1] at hb
    rw [(hid c).1] at hc
    rw [(hid b).2, (hid c).2] at heq
    exact h.uniq b c hb hc heq

end

end

/-- While a thread is in `commit`, only that thread changes the log. -/
theorem next_lh (hk : Control s) (he : Edge start s t (s.pc t) o q) (hc : (s.pc u).commits = true) :
    (o.next s t q).lh = s.lh ∨ (u = t ∧ o = .clear) := by
  have hrun := hk.commits u hc
  have hkeep : o.Quiet → (o.next s t q).lh = s.lh := fun hq => (next_log hq).lh
  generalize hpc : s.pc t = pc at he
  cases he with
  | absorb b hb ha ho hm =>
    have := hk.idle hrun
    omega
  | pin b =>
    have := (hk.pinning t b (by rw [hpc]; rfl)).2.2
    rw [hrun] at this
    cases this
  | clear tail ht => exact .inr ⟨hk.one u t hc (by rw [hpc]; rfl), rfl⟩
  | _ => exact .inl (by first | rfl | exact hkeep trivial)

theorem Pc.commits_of_names {pc : Pc n} {lh : List ℕ} {y : Fin n × ℕ} (hy : y ∈ pc.names start lh) :
    pc.commits = true := by
  induction pc with
  | out b k ih => exact ih hy
  | get b c | got b c => cases c <;> first | rfl | cases hy
  | _ => first | rfl | cases hy

theorem Cache.next_names (h : Cache start s) (hk : Control s) (he : Edge start s t (s.pc t) o q)
    (u : T)
    (y : Fin n × ℕ) (hy : y ∈ ((o.next s t q).pc u).names start (o.next s t q).lh) :
    ((o.next s t q).buf y.1).blockno = y.2 := by
  have hold : ∀ u, y ∈ (s.pc u).names start s.lh → ((o.next s t q).buf y.1).blockno = y.2 := by
    intro u hy
    rw [(h.keeps he (h.refcnt_pos (.inr (Pc.mem_refs_of_names hy)))).2]
    exact h.names u y hy
  by_cases hu : u = t
  · rw [hu, next_pc_self] at hy
    have hlh : (o.next s t q).lh = s.lh ∨ ∀ lh, q.names start lh = [] := by
      have hkeep : o.Quiet → (o.next s t q).lh = s.lh := fun hq => (next_log hq).lh
      generalize s.pc t = pc at he
      cases he with
      | absorb b hb ha ho hm | pin b | clear tail ht => exact .inr fun _ => rfl
      | _ => exact .inl (by first | rfl | exact hkeep trivial)
    rcases hlh with hlh | hnil
    · rw [hlh] at hy
      rcases he.names hy with hy | ⟨rfl, hc⟩ | rfl
      · exact hold t hy
      · rw [(next_id (o := .hit y.1) fun β h => nomatch h).2]
        exact (h.ring.cached_some hc).2
      · rw [next_buf_self rfl]
        rfl
    · rw [hnil] at hy
      cases hy
  · rw [next_pc_ne hu] at hy
    rcases next_lh hk he (Pc.commits_of_names hy) with hlh | ⟨hut, _⟩
    · rw [hlh] at hy
      exact hold u hy
    · exact absurd hut hu

theorem Cache.next_valid (h : Cache start s) (he : Edge start s t (s.pc t) o q) (u : T) (b : Fin n)
    (hb : b ∈ (o.next s t q).held u ∨ b ∈ ((o.next s t q).pc u).ready) :
    ((o.next s t q).buf b).valid = true := by
  have hold : ∀ u, b ∈ s.held u ∨ b ∈ (s.pc u).ready → ((o.next s t q).buf b).valid = true := by
    intro u hu
    refine Bio.next_valid (fun β hop => ?_) (.inl (h.valid u b hu))
    have h0 := (h.recycled he hop).1
    have hpos : 0 < s.refs b := refs_pos (u := u) (hu.imp_right fun hr =>
      Pc.mem_refs_of_locks (Pc.mem_locks_of_ready hr))
    omega
  by_cases hu : u = t
  · rw [hu, next_held_self, next_pc_self] at hb
    rcases he.ready hb with hb | hop
    · exact hold t hb
    · refine Bio.next_valid (fun β h => ?_) (.inr hop)
      rcases hop with rfl | rfl <;> cases h
  · rw [next_held_ne hu, next_pc_ne hu] at hb
    exact hold u hb

theorem Cache.next_changed (h : Cache start s) (he : Edge start s t (s.pc t) o q) (b : Fin n)
    (hb' : (o.next s t q).changed b = true) : ∃ u, b ∈ (o.next s t q).held u := by
  rcases Bio.next_changed b hb' with hb | ⟨d, rfl⟩
  · obtain ⟨u, hu⟩ := h.changed b hb
    refine ⟨u, ?_⟩
    by_cases hut : u = t
    · rw [hut, next_held_self]
      rw [hut] at hu
      generalize s.pc t = pc at he
      cases he with
      | hold c => exact mem_cons_of_mem _ hu
      | release c hc hch hl =>
        have hne : b ≠ c := by
          rintro rfl
          exact absurd (hb.symm.trans hch) (by decide)
        exact (mem_erase_of_ne hne).mpr hu
      | _ => exact hu
    · rw [next_held_ne hut]
      exact hu
  · refine ⟨t, ?_⟩
    rw [next_held_self]
    generalize s.pc t = pc at he
    cases he with
    | modify _ _ hm ha => exact hm

/-- While `log_write` is on its way to `bpin`, the log stays as it is. -/
theorem next_lh_pinning (hk : Control s) (he : Edge start s t (s.pc t) o q) (hu : u ≠ t)
    (hb : (s.pc u).pinning = some b) : (o.next s t q).lh = s.lh := by
  obtain ⟨hl, _, hc⟩ := hk.pinning u b hb
  have hkeep : o.Quiet → (o.next s t q).lh = s.lh := fun hq => (next_log hq).lh
  generalize hpc : s.pc t = pc at he
  cases he with
  | absorb b hb ha ho hm =>
    show absorb _ s.lh = s.lh
    rw [absorb_eq, if_pos hm]
  | pin b =>
    have := (hk.pinning t b (by rw [hpc]; rfl)).1
    rw [hl] at this
    exact absurd (some.inj this) hu
  | clear tail ht =>
    have := hk.commits t (by rw [hpc]; rfl)
    rw [hc] at this
    cases this
  | _ => first | rfl | exact hkeep trivial

section

variable (h : Cache start s)

include h

theorem Cache.next_pinning (hk : Control s) (he : Edge start s t (s.pc t) o q) (u : T)
    (b : Fin n) (hb : ((o.next s t q).pc u).pinning = some b) :
    b ∈ (o.next s t q).held u ∧ ¬LogArea start ((o.next s t q).buf b).blockno ∧
      ((o.next s t q).buf b).blockno ∉ (o.next s t q).lh := by
  have hold : ∀ u, (s.pc u).pinning = some b → (o.next s t q).held u = s.held u →
      (o.next s t q).lh = s.lh → b ∈ (o.next s t q).held u ∧
      ¬LogArea start ((o.next s t q).buf b).blockno ∧
        ((o.next s t q).buf b).blockno ∉ (o.next s t q).lh := by
    intro u hb hheld hlh
    have hp := h.pinning u b hb
    rw [hheld, hlh, (h.keeps he (h.refcnt_pos (.inl hp.1))).2]
    exact hp
  by_cases hu : u = t
  · rw [hu, next_pc_self] at hb
    rw [hu]
    rcases he.pinning hb with ⟨hb, ⟨c, rfl⟩ | ⟨p, rfl⟩⟩ | ⟨rfl, h1, h2, _, _, h3⟩
    · exact hold t hb next_held_self (next_log (o := .drop c) trivial).lh
    · exact hold t hb next_held_self (next_log (o := .panic p) trivial).lh
    · exact ⟨h1, h2, h3⟩
  · rw [next_pc_ne hu] at hb
    exact hold u hb (next_held_ne hu) (next_lh_pinning hk he hu hb)

theorem Cache.next_area (he : Edge start s t (s.pc t) o q) (β : ℕ)
    (hβ : β ∈ (o.next s t q).lh) : ¬LogArea start β := by
  have hkeep : o.Quiet → ¬LogArea start β := fun hq => by
    rw [(next_log hq).lh] at hβ
    exact h.area β hβ
  have hadd : ∀ γ, β ∈ absorb γ s.lh → ¬LogArea start γ → ¬LogArea start β := by
    intro γ hm hγ
    rw [absorb_eq] at hm
    split at hm
    · exact h.area β hm
    · rcases List.mem_append.mp hm with hm | hm
      · exact h.area β hm
      · rw [List.mem_singleton.mp hm]
        exact hγ
  generalize hpc : s.pc t = pc at he
  cases he with
  | absorb b hb ha ho hm => exact hadd _ hβ ha
  | pin b =>
    have hb := (h.pinning t b (by rw [hpc]; rfl)).2.1
    rw [show ((Op.pin b).next s t .free).lh = absorb (update s.buf b _ b).blockno s.lh from rfl,
      update_self] at hβ
    exact hadd _ hβ hb
  | clear tail ht => cases hβ
  | _ => first | exact h.area β hβ | exact hkeep trivial

theorem Cache.next_cached (he : Edge start s t (s.pc t) o q) (β : ℕ)
    (hβ : β ∈ (o.next s t q).pins) : ∃ b, ((o.next s t q).buf b).dev = rootDev ∧
      ((o.next s t q).buf b).blockno = β ∧ ((o.next s t q).buf b).valid = true := by
  have hold : ∀ β ∈ s.pins, ∃ b, ((o.next s t q).buf b).dev = rootDev ∧
      ((o.next s t q).buf b).blockno = β ∧ ((o.next s t q).buf b).valid = true := by
    intro β hβ
    obtain ⟨b, h1, h2, h3⟩ := h.cached β hβ
    have hpos := h.pinned_pos h1 (by rw [h2]; exact hβ)
    obtain ⟨hd, hb⟩ := h.keeps he hpos
    refine ⟨b, hd.trans h1, hb.trans h2, Bio.next_valid (fun γ hop => ?_) (.inl h3)⟩
    obtain ⟨h4, h5, _⟩ := h.recycled he hop
    have := h.refs b
    omega
  cases o with
  | pin c =>
    rcases List.mem_append.mp hβ with hβ | hβ
    · exact hold β hβ
    · rw [List.mem_singleton.mp hβ]
      have hc : c ∈ s.held t := by
        generalize hpc : s.pc t = pc at he
        cases he
        exact (h.pinning t c (by rw [hpc]; rfl)).1
      obtain ⟨hd, hb⟩ := next_id (o := .pin c) (s := s) (t := t) (q := q) (b := c) fun β h =>
        nomatch h
      exact ⟨c, hd.trans (h.dev c (refs_pos (.inl hc))), hb,
        Bio.next_valid (fun β h => nomatch h) (.inl (h.valid t c (.inl hc)))⟩
  | bunpin c => exact hold β (mem_of_mem_erase hβ)
  | drop c =>
    rw [next_pins (o := .drop c) (fun c h => nomatch h) (fun c h => nomatch h)] at hβ
    exact hold β hβ
  | _ => exact hold β hβ

theorem Cache.next (hk : Control s) (he : Edge start s t (s.pc t) o q)
    (hen : o.Enabled s) : Cache start (o.next s t q) where
  ring := h.next_ring
  refs := h.next_refs hk he
  locks := h.next_locks he hen
  dev := h.next_dev he
  uniq := h.next_uniq he
  names := h.next_names hk he
  valid := h.next_valid he
  changed := h.next_changed he
  pinning := h.next_pinning hk he
  area := h.next_area he
  cached := h.next_cached he

theorem Cache.next_control (hk : Control s) (he : Edge start s t (s.pc t) o q)
    (hen : o.Enabled s) : Control (o.next s t q) :=
  hk.next he hen (fun b hpc => (h.pinning t b (by rw [hpc]; rfl)).2.2) fun _ _ _ hpc =>
    (h.installs hk hpc).2.1

end

end

end Xv6.Bio
