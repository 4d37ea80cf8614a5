/-
  The buffer cache is a plain array of blocks.

  `Coherent s a` relates a state of the cache to the array `a`: a valid buffer holds the contents of
  its block, a block that is not pinned is up to date on disk, and `write_log` puts the contents of
  the pinned blocks into the log, from where `install_trans` takes them. A step keeps the relation,
  with a `log_write` changing the array and every `bread` returning what is in it.
-/
import Xv6.Bio.Cache
import Xv6.Lib.Refine

namespace Xv6.Bio

open Lib Function List Option Pc
open Log (Block absorb headerBlock absorb_eq)

variable {T : Type} {n : ℕ}

/-- A valid buffer holds its block: outside the log the contents of the array, unless the caller has
changed it and not come to `log_write`; in the log the contents of the disk. -/
structure Fine (start : ℕ) (s : St T n) (a : ℕ → Block) (b : Fin n) : Prop where
  clean : (s.buf b).dev = rootDev → (s.buf b).valid = true → ¬LogArea start (s.buf b).blockno →
    s.changed b = false → (s.buf b).data = a (s.buf b).blockno
  log : (s.buf b).dev = rootDev → (s.buf b).valid = true → LogArea start (s.buf b).blockno →
    (∀ u, (s.pc u).writing ≠ some b) → (s.buf b).data = s.disk (s.buf b).blockno

structure Coherent (start : ℕ) (s : St T n) (a : ℕ → Block) : Prop where
  fine : ∀ b, Fine start s a b
  disk : ∀ β, ¬LogArea start β → β ∉ s.pins → s.disk β = a β
  copies : ∀ u i, (s.pc u).commits = true → i < (s.pc u).copied s.lh.length →
    s.disk (start + i + 1) = a (s.lh.getD i 0)
  moved : ∀ u i b, (s.pc u).moved = some (i, b) → (s.buf b).data = a (s.lh.getD i 0)
  written : ∀ u i, (s.pc u).written = some i → s.disk (s.lh.getD i 0) = a (s.lh.getD i 0)

theorem boot_coherent (start : ℕ) (d : ℕ → Block) : Coherent start (boot T n d) d where
  fine := fun _ => ⟨nofun, nofun⟩
  disk := fun _ _ _ => rfl
  copies := nofun
  moved := nofun
  written := nofun

/-- Nothing changes for the buffer. -/
theorem Fine.congr {start : ℕ} {s s' : St T n} {a a' : ℕ → Block} {b : Fin n} (h : Fine start s a b)
    (hid : (s'.buf b).dev = (s.buf b).dev ∧ (s'.buf b).blockno = (s.buf b).blockno)
    (hv : (s'.buf b).valid = (s.buf b).valid) (hd : (s'.buf b).data = (s.buf b).data)
    (hc : s'.changed b = s.changed b)
    (ha : (s.buf b).dev = rootDev → ¬LogArea start (s.buf b).blockno →
      a' (s.buf b).blockno = a (s.buf b).blockno)
    (hdisk : (s.buf b).dev = rootDev → LogArea start (s.buf b).blockno →
      s'.disk (s.buf b).blockno = s.disk (s.buf b).blockno)
    (hw : (∀ u, (s'.pc u).writing ≠ some b) → ∀ u, (s.pc u).writing ≠ some b) :
    Fine start s' a' b := by
  refine ⟨fun h1 h2 h3 h4 => ?_, fun h1 h2 h3 h4 => ?_⟩
  · rw [hid.1] at h1
    rw [hid.2] at h3
    rw [hid.2, hd, ha h1 h3]
    exact h.clean h1 (hv ▸ h2) h3 (hc ▸ h4)
  · rw [hid.1] at h1
    rw [hid.2] at h3
    rw [hid.2, hd, hdisk h1 h3]
    exact h.log h1 (hv ▸ h2) h3 (hw h4)

/-- The log block of a round. -/
theorem logArea_round [Fintype T] {start i : ℕ} {s : St T n} (hk : Control s)
    (hi : i < s.lh.length) : LogArea start (start + i + 1) := by
  have := hk.len
  constructor <;> omega

/-! ## Locked buffers -/

section

variable [Fintype T] [DecidableEq T] {start : ℕ} {s : St T n} {t u v : T} {b c : Fin n}
  {a : ℕ → Block}

theorem Cache.name (h : Cache start s) {β : ℕ} (hb : (b, β) ∈ (s.pc u).names start s.lh) :
    (s.buf b).blockno = β :=
  h.names u (b, β) hb

theorem Cache.owner (h : Cache start s) (hb : b ∈ s.held u ∨ b ∈ (s.pc u).locks) :
    (s.buf b).lock = some u := by
  have hcount := h.locks u b
  by_contra hl
  rw [if_neg hl] at hcount
  rcases hb with hb | hb
  · have := List.count_pos_iff.mpr hb
    omega
  · have := List.count_pos_iff.mpr hb
    omega

/-- A buffer that a position has locked is not with a caller. -/
theorem Cache.not_held (h : Cache start s) (hb : b ∈ (s.pc u).locks) (v : T) : b ∉ s.held v := by
  intro hv
  have h1 := h.owner (.inr hb)
  rw [h.owner (.inl hv)] at h1
  obtain rfl := some.inj h1
  have hcount := h.locks v b
  have := List.count_pos_iff.mpr hb
  have := List.count_pos_iff.mpr hv
  split at hcount <;> omega

theorem Cache.unchanged (h : Cache start s) (hb : b ∈ (s.pc u).locks) : s.changed b = false := by
  cases hc : s.changed b with
  | false => rfl
  | true =>
    obtain ⟨v, hv⟩ := h.changed b hc
    exact absurd hv (h.not_held hb v)

theorem Cache.dev_of_locks (h : Cache start s) (hb : b ∈ (s.pc u).locks) :
    (s.buf b).dev = rootDev :=
  h.dev b (refs_pos (u := u) (.inr (mem_refs_of_locks hb)))

/-- What `bread` returns. -/
theorem Coherent.filled (h : Coherent start s a) (hc : Cache start s) (hb : b ∈ (s.pc u).locks)
    (ha : ¬LogArea start (s.buf b).blockno) :
    ((s.buf b).fill s.disk).data = a (s.buf b).blockno := by
  have hd := hc.dev_of_locks hb
  unfold Buf.fill
  split
  · rename_i hv
    exact (h.fine b).clean hd hv ha (hc.unchanged hb)
  · rename_i hv
    refine h.disk _ ha fun hm => hv ?_
    obtain ⟨c, h1, h2, h3⟩ := hc.cached _ hm
    rw [← hc.uniq c b h1 hd h2]
    exact h3

end

/-! ## One step -/

/-- The buffer whose contents an operation changes. -/
def Op.touches : Op n → Option (Fin n)
  | .recycle b _ | .fill b | .hold b | .modify b _ | .move b _ => some b
  | _ => none

/-- The array after an operation. -/
def Op.after (s : St T n) (a : ℕ → Block) : Op n → ℕ → Block
  | .absorb b | .pin b => update a (s.buf b).blockno (s.buf b).data
  | _ => a

section

variable [DecidableEq T] {start : ℕ} {s : St T n} {t u v : T} {o : Op n} {q : Pc n} {b c : Fin n}
  {a : ℕ → Block}

theorem next_content (h : o.touches ≠ some b) :
    (((o.next s t q).buf b).dev = (s.buf b).dev ∧
      ((o.next s t q).buf b).blockno = (s.buf b).blockno) ∧
      ((o.next s t q).buf b).valid = (s.buf b).valid ∧
      ((o.next s t q).buf b).data = (s.buf b).data := by
  by_cases ht : o.target = some b
  · rw [next_buf_self ht]
    cases o with
    | recycle c β | fill c | hold c | modify c d | move c d => exact absurd ht h
    | _ => exact ⟨⟨rfl, rfl⟩, rfl, rfl⟩
  · rw [next_buf_ne ht]
    exact ⟨⟨rfl, rfl⟩, rfl, rfl⟩

theorem next_changed_eq (h1 : ∀ d, o ≠ .modify b d) (h2 : o ≠ .absorb b) (h3 : o ≠ .pin b) :
    (o.next s t q).changed b = s.changed b := by
  cases o with
  | drop c =>
    unfold Op.next Op.apply
    dsimp only
    split <;> rfl
  | modify c d => exact update_of_ne (fun h => h1 d (congrArg (Op.modify · d) h.symm)) ..
  | absorb c => exact update_of_ne (fun h => h2 (congrArg Op.absorb h.symm)) ..
  | pin c => exact update_of_ne (fun h => h3 (congrArg Op.pin h.symm)) ..
  | _ => rfl

theorem next_disk (h : ∀ b, o ≠ .bwrite b) : (o.next s t q).disk = s.disk := by
  cases o with
  | drop c =>
    unfold Op.next Op.apply
    dsimp only
    split <;> rfl
  | bwrite c => exact absurd rfl (h c)
  | _ => rfl

theorem next_writing (he : Edge start s t (s.pc t) o q) (hop : o.Plain) (u : T) :
    ((o.next s t q).pc u).writing = (s.pc u).writing ∧
    ((o.next s t q).pc u).moved = (s.pc u).moved ∧
      ((o.next s t q).pc u).written = (s.pc u).written := by
  by_cases hu : u = t
  · rw [hu, next_pc_self]
    exact he.writing hop
  · rw [next_pc_ne hu]
    exact ⟨rfl, rfl, rfl⟩

/-- Steps that do not write to the disk or change the log leave the commit where it is. -/
theorem Coherent.next_plain (h : Coherent start s a) (he : Edge start s t (s.pc t) o q)
    (hop : o.Plain)
    (hlh : (o.next s t q).lh = s.lh) (hpins : (o.next s t q).pins = s.pins)
    (hfine : ∀ b, Fine start (o.next s t q) a b)
    (hmoved : ∀ u i b, (s.pc u).moved = some (i, b) → o.touches ≠ some b) :
    Coherent start (o.next s t q) a := by
  have hdisk : (o.next s t q).disk = s.disk := next_disk (by rintro b rfl; exact hop)
  refine ⟨hfine, fun β h1 h2 => ?_, fun u i hc hi => ?_, fun u i b hm => ?_, fun u i hw => ?_⟩
  · rw [hdisk]
    rw [hpins] at h2
    exact h.disk β h1 h2
  · rw [hdisk, hlh]
    rw [hlh] at hi
    by_cases hu : u = t
    · rw [hu, next_pc_self] at hc hi
      rcases he.copied hc with ⟨hct, hle⟩ | h0 | ⟨tail, dst, src, _, rfl, _⟩
      · exact h.copies t i hct (Nat.lt_of_lt_of_le hi hle)
      · omega
      · exact hop.elim
    · rw [next_pc_ne hu] at hc hi
      exact h.copies u i hc hi
  · rw [(next_writing he hop u).2.1] at hm
    rw [hlh, (next_content (hmoved u i b hm)).2.2]
    exact h.moved u i b hm
  · rw [(next_writing he hop u).2.2] at hw
    rw [hdisk, hlh]
    exact h.written u i hw

/-- A buffer whose contents stay as they are. -/
theorem Coherent.fine_other (h : Coherent start s a) (he : Edge start s t (s.pc t) o q)
    (hop : o.Plain)
    (hb : o.touches ≠ some b) (hc : (o.next s t q).changed b = s.changed b) :
    Fine start (o.next s t q) a b := by
  obtain ⟨hid, hv, hd⟩ := next_content (s := s) (t := t) (q := q) hb
  have hdisk : (o.next s t q).disk = s.disk := next_disk (by rintro b rfl; exact hop)
  refine (h.fine b).congr hid hv hd hc (fun _ _ => rfl) (fun _ _ => by rw [hdisk]) fun hw u => ?_
  rw [← (next_writing he hop u).1]
  exact hw u

/-- Operations that change no block and no log. -/
def Op.Idle : Op n → Prop
  | .recycle _ _ | .fill _ | .hold _ | .modify _ _ | .move _ _ | .bwrite _ | .bunpin _
  | .absorb _ | .pin _
  | .clear => False
  | _ => True

theorem Coherent.next_idle (h : Coherent start s a) (he : Edge start s t (s.pc t) o q)
    (hop : o.Idle) :
    Coherent start (o.next s t q) a := by
  have hplain : o.Plain := by
    cases o <;> trivial
  have htouch : ∀ b, o.touches ≠ some b := by
    rintro b hb
    cases o <;> first | exact hop.elim | cases hb
  have hlog : (o.next s t q).lh = s.lh ∧ (o.next s t q).pins = s.pins := by
    cases o with
    | drop c => exact ⟨(next_log (o := .drop c) trivial).lh, (next_log (o := .drop c) trivial).pins⟩
    | _ => first | exact ⟨rfl, rfl⟩ | exact hop.elim
  refine h.next_plain he hplain hlog.1 hlog.2 (fun b => h.fine_other he hplain (htouch b) ?_)
    fun _ _ b _ => htouch b
  refine next_changed_eq ?_ ?_ ?_
  · rintro d rfl
    exact hop
  · rintro rfl
    exact hop
  · rintro rfl
    exact hop

/-- `memmove` to a buffer leaves the others as they are. -/
theorem Coherent.fine_move (h : Coherent start s a) {d : Block} (hb : b ≠ c)
    (hw : (∀ u, (((Op.move c d).next s t q).pc u).writing ≠ some b) →
      ∀ u, (s.pc u).writing ≠ some b) :
    Fine start ((Op.move c d).next s t q) a b := by
  obtain ⟨hid, hv, hd⟩ := next_content (o := .move c d) (s := s) (t := t) (q := q) (b := b)
    fun h => hb (some.inj h).symm
  exact (h.fine b).congr hid hv hd rfl (fun _ _ => rfl) (fun _ _ => rfl) hw

end

section

variable [Fintype T] [DecidableEq T] {start : ℕ} {s : St T n} {t u v : T} {o : Op n} {q : Pc n}
  {b c : Fin n}
  {a : ℕ → Block}

section

variable (h : Coherent start s a) (hc : Cache start s)

include h hc

theorem Coherent.next_recycle {β : ℕ}
    (he : Edge start s t (s.pc t) (.recycle c β) q) :
    Coherent start ((Op.recycle c β).next s t q) a := by
  refine h.next_plain he trivial rfl rfl (fun b => ?_) fun u i b hm hb => ?_
  · by_cases hb : b = c
    · subst hb
      have hv : (((Op.recycle b β).next s t q).buf b).valid = false :=
        congrArg Buf.valid (next_buf_self rfl)
      exact ⟨fun _ h' => absurd (hv.symm.trans h') (by decide), fun _ h' =>
        absurd (hv.symm.trans h') (by decide)⟩
    · exact h.fine_other he trivial (fun h => hb (some.inj h).symm) rfl
  · obtain rfl : c = b := some.inj hb
    have h0 := (hc.recycled he rfl).1
    have := refs_pos (u := u) (.inr (mem_refs_of_locks (mem_locks_of_moved hm)))
    omega

/-- `bread` fills a buffer. -/
theorem Coherent.fine_fill (he : Edge start s t (s.pc t) o q)
    (hop : o = .fill b ∨ o = .hold b) : Fine start (o.next s t q) a b := by
  have hlock : b ∈ (s.pc t).locks := by
    generalize s.pc t = pc at he
    rcases hop with rfl | rfl
    · cases he with
      | fill b c hc => exact mem_cons_self
    · cases he with
      | hold b => exact mem_cons_self
  have hplain : o.Plain := by
    rcases hop with rfl | rfl <;> trivial
  have hbuf : (o.next s t q).buf b = (s.buf b).fill s.disk := by
    rcases hop with rfl | rfl <;> exact next_buf_self rfl
  have hchanged : (o.next s t q).changed b = s.changed b := by
    rcases hop with rfl | rfl <;> rfl
  have hdisk : (o.next s t q).disk = s.disk := by
    rcases hop with rfl | rfl <;> rfl
  have hid : ((s.buf b).fill s.disk).blockno = (s.buf b).blockno := by
    unfold Buf.fill
    split <;> rfl
  refine ⟨fun _ _ ha _ => ?_, fun _ _ ha hw => ?_⟩
  · rw [hbuf, hid] at ha ⊢
    exact h.filled hc hlock ha
  · rw [hbuf, hid] at ha ⊢
    rw [hdisk]
    have hw' : ∀ u, (s.pc u).writing ≠ some b := fun u => by
      rw [← (next_writing he hplain u).1]
      exact hw u
    unfold Buf.fill
    split
    · rename_i hv
      exact (h.fine b).log (hc.dev_of_locks hlock) hv ha hw'
    · rfl

theorem Coherent.next_fill (he : Edge start s t (s.pc t) o q)
    (hop : o = .fill c ∨ o = .hold c) : Coherent start (o.next s t q) a := by
  have hplain : o.Plain := by
    rcases hop with rfl | rfl <;> trivial
  have htouch : o.touches = some c := by
    rcases hop with rfl | rfl <;> rfl
  have hlock : c ∈ (s.pc t).locks ∧ (s.pc t).moved = none := by
    generalize s.pc t = pc at he
    rcases hop with rfl | rfl
    · cases he with
      | fill b c hc => exact ⟨mem_cons_self, rfl⟩
    · cases he with
      | hold b => exact ⟨mem_cons_self, rfl⟩
  refine h.next_plain he hplain ?_ ?_ (fun b => ?_) fun u i b hm hb => ?_
  · rcases hop with rfl | rfl <;> rfl
  · rcases hop with rfl | rfl <;> rfl
  · by_cases hb : b = c
    · rw [hb]
      exact h.fine_fill hc he hop
    · refine h.fine_other he hplain (fun h => hb ?_) ?_
      · rw [htouch] at h
        exact (some.inj h).symm
      · rcases hop with rfl | rfl <;> rfl
  · rw [htouch] at hb
    obtain rfl := some.inj hb
    have h1 := hc.owner (.inr (mem_locks_of_moved hm))
    rw [hc.owner (.inr hlock.1)] at h1
    obtain rfl := some.inj h1
    rw [hlock.2] at hm
    cases hm

theorem Coherent.next_modify {d : Block} (he : Edge start s t (s.pc t) (.modify c d) q)
    (hheld : c ∈ s.held t)
    (ha : ¬LogArea start (s.buf c).blockno) : Coherent start ((Op.modify c d).next s t q) a := by
  refine h.next_plain he trivial rfl rfl (fun b => ?_) fun u i b hm hb => ?_
  · by_cases hb : b = c
    · subst hb
      have hbuf : ((Op.modify b d).next s t q).buf b = { s.buf b with data := d } :=
        next_buf_self rfl
      refine ⟨fun _ _ _ h' => ?_, fun _ _ h' => ?_⟩
      · rw [show ((Op.modify b d).next s t q).changed b = true from update_self ..] at h'
        cases h'
      · rw [hbuf] at h'
        exact absurd h' ha
    · exact h.fine_other he trivial (fun h => hb (some.inj h).symm) (update_of_ne hb ..)
  · obtain rfl : c = b := some.inj hb
    exact hc.not_held (mem_locks_of_moved hm) t hheld

/-- `log_write` gives a block its new contents. -/
theorem Coherent.next_logged (hk : Control s)
    (he : Edge start s t (s.pc t) o q) (hop : o = .absorb c ∨ o = .pin c) (hheld : c ∈ s.held t)
    (ha : ¬LogArea start (s.buf c).blockno) (hcommit : s.committing = false) (hpc : q = .free)
    (hpins : (s.buf c).blockno ∈ (o.next s t q).pins)
    (hsub : ∀ β ∈ s.pins, β ∈ (o.next s t q).pins) :
    Coherent start (o.next s t q) (update a (s.buf c).blockno (s.buf c).data) := by
  have hplain : o.Plain := by
    rcases hop with rfl | rfl <;> trivial
  have htouch : ∀ b, o.touches ≠ some b := by
    rcases hop with rfl | rfl <;> exact nofun
  have hdev := hc.dev c (refs_pos (.inl hheld))
  have hdisk : (o.next s t q).disk = s.disk := by
    rcases hop with rfl | rfl <;> rfl
  have hchanged : (o.next s t q).changed = update s.changed c false := by
    rcases hop with rfl | rfl <;> rfl
  have hno : ∀ u, ((o.next s t q).pc u).commits = false := by
    intro u
    by_cases hu : u = t
    · rw [hu, next_pc_self, hpc]
      rfl
    · rw [next_pc_ne hu]
      exact hk.not_commits hcommit u
  refine ⟨fun b => ?_, fun β h1 h2 => ?_, fun u i hcu => ?_, fun u i b hm => ?_, fun u i hw => ?_⟩
  · by_cases hb : b = c
    · subst hb
      obtain ⟨hid, hv, hd⟩ := next_content (s := s) (t := t) (q := q) (htouch b)
      refine ⟨fun _ _ _ _ => ?_, fun _ _ h3 => ?_⟩
      · rw [hid.2, hd, update_self]
      · rw [hid.2] at h3
        exact absurd h3 ha
    · obtain ⟨hid, hv, hd⟩ := next_content (s := s) (t := t) (q := q) (htouch b)
      refine (h.fine b).congr hid hv hd ?_ (fun h1 h2 => ?_) (fun _ _ => by rw [hdisk]) fun hw u =>
        ?_
      · rw [hchanged, update_of_ne hb]
      · exact update_of_ne (fun he => hb (hc.uniq b c h1 hdev he)) ..
      · rw [← (next_writing he hplain u).1]
        exact hw u
  · rw [hdisk, update_of_ne]
    · exact h.disk β h1 fun hm => h2 (hsub β hm)
    · rintro rfl
      exact h2 hpins
  · rw [hno u] at hcu
    cases hcu
  · rw [(commits_of_writing (hno u)).2.1] at hm
    cases hm
  · rw [(commits_of_writing (hno u)).2.2] at hw
    cases hw

end

/-- A step of `commit`: the other threads are at no position of `log.c`. -/
theorem Coherent.next_commit (hk : Control s) (hct : (s.pc t).commits = true)
    (hfine : ∀ b, Fine start (o.next s t q) a b)
    (hdisk : ∀ β, ¬LogArea start β → β ∉ (o.next s t q).pins → (o.next s t q).disk β = a β)
    (hcopies : ∀ i, i < q.copied (o.next s t q).lh.length →
      (o.next s t q).disk (start + i + 1) = a ((o.next s t q).lh.getD i 0))
    (hmoved : ∀ i b, q.moved = some (i, b) →
      ((o.next s t q).buf b).data = a ((o.next s t q).lh.getD i 0))
    (hwritten : ∀ i, q.written = some i →
      (o.next s t q).disk ((o.next s t q).lh.getD i 0) = a ((o.next s t q).lh.getD i 0)) :
    Coherent start (o.next s t q) a := by
  have hno : ∀ u, u ≠ t → ((o.next s t q).pc u).commits = false := fun u hu => by
    rw [next_pc_ne hu]
    exact (hk.other hct hu).1
  refine ⟨hfine, hdisk, fun u i hc hi => ?_, fun u i b hm => ?_, fun u i hw => ?_⟩
  · by_cases hu : u = t
    · rw [hu, next_pc_self] at hi
      exact hcopies i hi
    · rw [hno u hu] at hc
      cases hc
  · by_cases hu : u = t
    · rw [hu, next_pc_self] at hm
      exact hmoved i b hm
    · rw [(commits_of_writing (hno u hu)).2.1] at hm
      cases hm
  · by_cases hu : u = t
    · rw [hu, next_pc_self] at hw
      exact hwritten i hw
    · rw [(commits_of_writing (hno u hu)).2.2] at hw
      cases hw

/-- The block of a round is one that is outside the log. -/
theorem Cache.round_area (h : Cache start s) (hk : Control s) {i : ℕ}
    (hi : (s.pc u).round = some i) :
    ¬LogArea start (s.lh.getD i 0) := by
  have hlt := hk.round u i hi
  rw [getD_eq_getElem _ _ hlt]
  exact h.area _ (getElem_mem hlt)

section

variable (h : Coherent start s a)

include h

/-- A block of the log proper, as `log.c` reads it. -/
theorem Coherent.read_log (hc : Cache start s) (hk : Control s)
    (hct : (s.pc t).commits = true) (hw : (s.pc t).writing = none) (hr : b ∈ (s.pc t).ready)
    (ha : LogArea start (s.buf b).blockno) : (s.buf b).data = s.disk (s.buf b).blockno := by
  refine (h.fine b).log (hc.dev_of_locks (mem_locks_of_ready hr)) (hc.valid t b (.inr hr))
    ha fun u hu => ?_
  by_cases hut : u = t
  · rw [hut, hw] at hu
    cases hu
  · rw [(commits_of_writing (hk.other hct hut).1).1] at hu
    cases hu

/-- Another block, as `log.c` reads it. -/
theorem Coherent.read_home (hc : Cache start s) (hr : b ∈ (s.pc t).ready)
    (ha : ¬LogArea start (s.buf b).blockno) : (s.buf b).data = a (s.buf b).blockno :=
  (h.fine b).clean (hc.dev_of_locks (mem_locks_of_ready hr)) (hc.valid t b (.inr hr)) ha
    (hc.unchanged (mem_locks_of_ready hr))

/-- A move of a log block: the buffer is now being written. -/
theorem Coherent.next_move_log (hk : Control s) {d : Block}
    (hct : (s.pc t).commits = true) (hw0 : (s.pc t).writing = none) (hw : q.writing = some c)
    (ha : LogArea start (s.buf c).blockno)
    (hcopied : q.copied s.lh.length ≤ (s.pc t).copied s.lh.length)
    (hmoved : ∀ i b, q.moved = some (i, b) → b = c ∧ d = a (s.lh.getD i 0))
    (hwritten : q.written = none) :
    Coherent start ((Op.move c d).next s t q) a := by
  have hbuf : ((Op.move c d).next s t q).buf c = { s.buf c with data := d } := next_buf_self rfl
  refine Coherent.next_commit hk hct (fun b => ?_) h.disk
    (fun i hi => h.copies t i hct (Nat.lt_of_lt_of_le hi hcopied))
    (fun i b hm => ?_) fun i hi => ?_
  · by_cases hb : b = c
    · subst hb
      refine ⟨fun _ _ h3 => ?_, fun _ _ _ h4 => ?_⟩
      · rw [hbuf] at h3
        exact absurd ha h3
      · exact absurd (by rw [next_pc_self]; exact hw) (h4 t)
    · refine h.fine_move hb fun h4 u hu => ?_
      by_cases hut : u = t
      · rw [hut, hw0] at hu
        cases hu
      · exact h4 u (by rw [next_pc_ne hut]; exact hu)
  · obtain ⟨rfl, hd⟩ := hmoved i b hm
    rw [hbuf]
    exact hd
  · rw [hwritten] at hi
    cases hi

theorem Coherent.next_move (hc : Cache start s) (hk : Control s) {d : Block}
    (hm : Moves s (s.pc t) c d q) : Coherent start ((Op.move c d).next s t q) a := by
  generalize hpc : s.pc t = pc at hm
  cases hm with
  | log tail dst src =>
    have hround : (s.pc t).round = some tail := by rw [hpc]; rfl
    have hsrc : (s.buf src).blockno = s.lh.getD tail 0 :=
      hc.name (u := t) (by rw [hpc]; exact mem_cons_self)
    have hdst : (s.buf c).blockno = start + tail + 1 :=
      hc.name (u := t) (by rw [hpc]; exact mem_cons_of_mem _ mem_cons_self)
    refine h.next_move_log hk (by rw [hpc]; rfl) (by rw [hpc]; rfl) rfl ?_
      (by rw [hpc]; exact Nat.le_refl _)
      (fun i b hib => ?_) rfl
    · rw [hdst]
      exact logArea_round hk (hk.round t tail hround)
    · cases hib
      refine ⟨rfl, ?_⟩
      rw [← hsrc]
      refine h.read_home hc (t := t) (by rw [hpc]; exact mem_cons_self) ?_
      rw [hsrc]
      exact hc.round_area hk hround
  | head last b =>
    have hb : (s.buf c).blockno = start := hc.name (u := t) (by rw [hpc]; exact mem_cons_self)
    refine h.next_move_log hk (by rw [hpc]; rfl) (by rw [hpc]; rfl) rfl ?_
      (by rw [hpc]; exact Nat.le_refl _)
      (fun i b hib => nomatch hib) rfl
    rw [hb]
    exact ⟨Nat.le_refl _, Nat.le_add_right _ _⟩
  | ins tail lbuf dbuf =>
    have hct : (s.pc t).commits = true := by rw [hpc]; rfl
    have hround : (s.pc t).round = some tail := by rw [hpc]; rfl
    have hd : (s.buf c).blockno = s.lh.getD tail 0 :=
      hc.name (u := t) (by rw [hpc]; exact mem_cons_self)
    have hl : (s.buf lbuf).blockno = start + tail + 1 :=
      hc.name (u := t) (by rw [hpc]; exact mem_cons_of_mem _ mem_cons_self)
    have hlt := hk.round t tail hround
    have hread := h.read_log hc hk hct (b := lbuf) (by rw [hpc]; rfl)
      (by rw [hpc]; exact mem_cons_of_mem _ mem_cons_self)
      (by rw [hl]; exact logArea_round hk hlt)
    have hdata : (s.buf lbuf).data = a (s.lh.getD tail 0) := by
      rw [hread, hl]
      exact h.copies t tail hct (by rw [hpc]; exact hlt)
    have hbuf : ((Op.move c (s.buf lbuf).data).next s t (.insMoved tail lbuf c)).buf c =
      { s.buf c with data := (s.buf lbuf).data } := next_buf_self rfl
    refine Coherent.next_commit hk hct (fun b => ?_) h.disk
      (fun i hi => h.copies t i hct (by rw [hpc]; exact hi))
      (fun i b hm => nomatch hm) fun i hi => nomatch hi
    by_cases hb : b = c
    · subst hb
      refine ⟨fun _ _ _ _ => ?_, fun _ _ h3 => ?_⟩
      · rw [hbuf]
        show (s.buf lbuf).data = a (s.buf b).blockno
        rw [hdata, hd]
      · rw [hbuf] at h3
        have h3 : LogArea start (s.buf b).blockno := h3
        rw [hd] at h3
        exact absurd h3 (hc.round_area hk hround)
    · refine h.fine_move hb fun h4 u hu => ?_
      by_cases hut : u = t
      · rw [hut, hpc] at hu
        cases hu
      · exact h4 u (by rw [next_pc_ne hut]; exact hu)

/-- After `bwrite` the disk has what is in the buffer. -/
theorem Coherent.fine_bwrite (hc : Cache start s) (hdev : (s.buf c).dev = rootDev)
    (hw : ∀ x, (s.pc t).writing = some x → x = c) (b : Fin n) :
    Fine start ((Op.bwrite c).next s t q) a b := by
  refine ⟨(h.fine b).clean, fun h1 h2 h3 h4 => ?_⟩
  show (s.buf b).data = update s.disk (s.buf c).blockno (s.buf c).data (s.buf b).blockno
  by_cases hb : b = c
  · rw [hb, update_self]
  · rw [update_of_ne fun he => hb (hc.uniq b c h1 hdev he)]
    refine (h.fine b).log h1 h2 h3 fun u hu => ?_
    by_cases hut : u = t
    · exact hb (hw b (hut ▸ hu))
    · exact h4 u (by rw [next_pc_ne hut]; exact hu)

theorem Coherent.next_bwrite (hc : Cache start s) (hk : Control s)
    (hw : Writes (s.pc t) c q) : Coherent start ((Op.bwrite c).next s t q) a := by
  have hnext : ((Op.bwrite c).next s t q).disk = update s.disk (s.buf c).blockno (s.buf c).data :=
    rfl
  have hlog : LogArea start (s.buf c).blockno → ∀ β, ¬LogArea start β → β ∉ s.pins →
      ((Op.bwrite c).next s t q).disk β = a β := by
    intro ha β h1 h2
    rw [hnext, update_of_ne]
    · exact h.disk β h1 h2
    · rintro rfl
      exact h1 ha
  have hlock : c ∈ (s.pc t).locks := by
    generalize s.pc t = pc at hw
    cases hw with
    | log tail dst src => exact mem_cons_of_mem _ mem_cons_self
    | _ => exact mem_cons_self
  have hdev := hc.dev_of_locks hlock
  generalize hpc : s.pc t = pc at hw
  cases hw with
  | log tail dst src =>
    have hct : (s.pc t).commits = true := by rw [hpc]; rfl
    have hlt := hk.round t tail (by rw [hpc]; rfl)
    have hdst : (s.buf c).blockno = start + tail + 1 :=
      hc.name (u := t) (by rw [hpc]; exact mem_cons_of_mem _ mem_cons_self)
    refine Coherent.next_commit hk hct (h.fine_bwrite hc hdev fun x hx => ?_)
      (hlog (by rw [hdst]; exact logArea_round hk hlt)) (fun i hi => ?_) (fun i b hm => nomatch hm)
      fun i hi => nomatch hi
    · rw [hpc] at hx
      exact (some.inj hx).symm
    · have hi : i < tail + 1 := hi
      rw [hnext, hdst]
      by_cases hit : i = tail
      · rw [hit, update_self]
        exact h.moved t tail c (by rw [hpc]; rfl)
      · rw [update_of_ne (by omega)]
        exact h.copies t i hct (by rw [hpc]; show i < tail; omega)
  | head last b =>
    have hct : (s.pc t).commits = true := by rw [hpc]; rfl
    have hb : (s.buf c).blockno = start := hc.name (u := t) (by rw [hpc]; exact mem_cons_self)
    refine Coherent.next_commit hk hct (h.fine_bwrite hc hdev fun x hx => ?_)
      (hlog (by rw [hb]; exact ⟨Nat.le_refl _, Nat.le_add_right _ _⟩)) (fun i hi => ?_)
        (fun i b hm => nomatch hm)
      fun i hi => nomatch hi
    · rw [hpc] at hx
      exact (some.inj hx).symm
    · rw [hnext, hb, update_of_ne (by omega)]
      exact h.copies t i hct (by rw [hpc]; exact hi)
  | ins tail lbuf dbuf =>
    have hct : (s.pc t).commits = true := by rw [hpc]; rfl
    have hround : (s.pc t).round = some tail := by rw [hpc]; rfl
    have hd : (s.buf c).blockno = s.lh.getD tail 0 :=
      hc.name (u := t) (by rw [hpc]; exact mem_cons_self)
    have harea := hc.round_area hk hround
    have hdata : (s.buf c).data = a (s.lh.getD tail 0) := by
      rw [← hd]
      exact h.read_home hc (t := t) (by rw [hpc]; exact mem_cons_self) (by rw [hd]; exact harea)
    refine Coherent.next_commit hk hct (h.fine_bwrite hc hdev fun x hx => ?_) (fun β h1 h2 => ?_)
      (fun i hi => ?_)
      (fun i b hm => nomatch hm) fun i hi => ?_
    · rw [hpc] at hx
      cases hx
    · rw [hnext, hd]
      by_cases hβ : β = s.lh.getD tail 0
      · rw [hβ, update_self, hdata]
      · rw [update_of_ne hβ]
        exact h.disk β h1 h2
    · have hi : i < s.lh.length := hi
      rw [hnext, hd, update_of_ne]
      · exact h.copies t i hct (by rw [hpc]; exact hi)
      · intro he
        rw [← he] at harea
        exact harea (logArea_round hk hi)
    · cases hi
      rw [hnext, hd]
      exact (update_self ..).trans hdata

theorem Coherent.next_bunpin (hc : Cache start s) (hk : Control s) {tail : ℕ} {lbuf : Fin n}
    (hpc : s.pc t = .insWritten tail lbuf c) :
    Coherent start ((Op.bunpin c).next s t (.insUnpinned tail lbuf c)) a := by
  have hct : (s.pc t).commits = true := by rw [hpc]; rfl
  obtain ⟨_, hd, _⟩ := hc.installs hk hpc
  refine Coherent.next_commit hk hct (fun b => ?_) (fun β h1 h2 => ?_)
    (fun i hi => h.copies t i hct (by rw [hpc]; exact hi)) (fun i b hm => nomatch hm) fun i hi =>
      nomatch hi
  · obtain ⟨hid, hv, hdata⟩ :=
      next_content (o := .bunpin c) (s := s) (t := t) (q := .insUnpinned tail lbuf c)
      (b := b) nofun
    refine (h.fine b).congr hid hv hdata rfl (fun _ _ => rfl) (fun _ _ => rfl) fun h4 u hu => ?_
    by_cases hut : u = t
    · rw [hut, hpc] at hu
      cases hu
    · exact h4 u (by rw [next_pc_ne hut]; exact hu)
  · by_cases hβ : β = (s.buf c).blockno
    · rw [hβ, hd]
      exact h.written t tail (by rw [hpc]; rfl)
    · exact h.disk β h1 fun hm => h2 ((mem_erase_of_ne hβ).mpr hm)

theorem Coherent.next_clear (hk : Control s) {tail : ℕ} (hpc : s.pc t = .insStart tail) :
    Coherent start (Op.clear.next s t (.headStart true)) a := by
  refine Coherent.next_commit hk (by rw [hpc]; rfl) (fun b => ?_) h.disk
    (fun i hi => absurd hi (Nat.not_lt_zero i))
    (fun i b hm => nomatch hm) fun i hi => nomatch hi
  refine (h.fine b).congr ⟨rfl, rfl⟩ rfl rfl rfl (fun _ _ => rfl) (fun _ _ => rfl) fun h4 u hu => ?_
  by_cases hut : u = t
  · rw [hut, hpc] at hu
    cases hu
  · exact h4 u (by rw [next_pc_ne hut]; exact hu)

theorem Coherent.next (hc : Cache start s) (hk : Control s)
    (he : Edge start s t (s.pc t) o q) : Coherent start (o.next s t q) (o.after s a) := by
  have hidle : o.Idle → Coherent start (o.next s t q) a := h.next_idle he
  have he' := he
  generalize hpc : s.pc t = pc at he
  cases he with
  | recycle b hc' h0 hr => exact h.next_recycle hc he'
  | fill b c hc' => exact h.next_fill hc he' (.inl rfl)
  | hold b => exact h.next_fill hc he' (.inr rfl)
  | modify b d hb ha => exact h.next_modify hc he' hb ha
  | absorb b hb ha ho hm =>
    have hcommit := hk.committing_of_outstanding ho
    refine h.next_logged hc hk he' (.inl rfl) hb ha hcommit rfl ?_ fun β hβ => hβ
    show (s.buf b).blockno ∈ s.pins
    rw [hk.pins hcommit]
    exact hm
  | pin b =>
    obtain ⟨hb, ha, _⟩ := hc.pinning t b (by rw [hpc]; rfl)
    have hcommit := (hk.pinning t b (by rw [hpc]; rfl)).2.2
    exact h.next_logged hc hk he' (.inr rfl) hb ha hcommit rfl
      (mem_append_right _ (List.mem_singleton.mpr rfl)) fun β hβ => mem_append_left _ hβ
  | move hm => exact h.next_move hc hk (hpc ▸ hm)
  | bwrite hw hl => exact h.next_bwrite hc hk (hpc ▸ hw)
  | bunpin tail lbuf dbuf => exact h.next_bunpin hc hk hpc
  | clear tail ht => exact h.next_clear hk hpc
  | _ => exact hidle trivial

/-- What a step shows is what the array does. -/
theorem Coherent.observed (hc : Cache start s) (he : Edge start s t (s.pc t) o q) :
    Run Plain a (o.obs start s) (o.after s a) := by
  have hread : ∀ b, b ∈ (s.pc t).locks →
    Run Plain a (if LogArea start ((s.buf b).fill s.disk).blockno then []
        else [.read ((s.buf b).fill s.disk).blockno ((s.buf b).fill s.disk).data]) a := by
    intro b hb
    have hid : ((s.buf b).fill s.disk).blockno = (s.buf b).blockno := by
      unfold Buf.fill
      split <;> rfl
    rw [hid]
    split
    · exact .nil
    · rename_i ha
      exact Run.cons ⟨h.filled hc hb ha, rfl⟩ .nil
  cases o with
  | fill b =>
    refine hread b ?_
    generalize s.pc t = pc at he
    cases he with
    | fill b c hc => exact mem_cons_self
  | hold b =>
    refine hread b ?_
    generalize s.pc t = pc at he
    cases he with
    | hold b => exact mem_cons_self
  | absorb b | pin b => exact Run.cons rfl .nil
  | _ => exact .nil

end

end

/-! ## Runs -/

section

variable [DecidableEq T] {start : ℕ} {s s' : St T n} {a : ℕ → Block} {e : T × Choice n}

theorem step_edge (h : step start s e = some s') :
    ∃ o q, edge start s e.1 (s.pc e.1) e.2 = some (o, q) ∧ o.Enabled s ∧ s' = o.next s e.1 q := by
  unfold step at h
  split at h
  · cases h
  split at h
  · rename_i o q he
    split at h
    · rename_i hen
      exact ⟨o, q, he, hen, (some.inj h).symm⟩
    · cases h
  · cases h

variable [Fintype T]

/-- The state of the cache, next to the array. -/
structure Refines (start : ℕ) (s : St T n) (a : ℕ → Block) : Prop where
  control : Control s
  cache : Cache start s
  coherent : Coherent start s a

theorem boot_refines (start : ℕ) (d : ℕ → Block) : Refines start (boot T n d) d :=
  ⟨boot_control d, boot_cache start d, boot_coherent start d⟩

theorem Refines.step (h : Refines start s a) (hs : Fires (step start) s e s') :
    ∃ a', Run Plain a (observe start s e) a' ∧ Refines start s' a' := by
  obtain ⟨o, q, hedge, hen, rfl⟩ := step_edge hs
  have he := Edge.of_edge hedge
  have hobs : observe start s e = o.obs start s := by
    unfold observe
    rw [hedge]
  rw [hobs]
  exact ⟨o.after s a, h.coherent.observed h.cache he, h.cache.next_control h.control he hen,
    h.cache.next h.control he hen, h.coherent.next h.cache h.control he⟩

/-- The buffer cache refines a plain array of blocks. In every run from `binit`, with any threads
and any interleaving: the links form one circular list with every buffer in it once; no block of the
device is in two buffers; a buffer with references, and so one that a thread has or the log has
pinned, keeps its block; and what `bread` returns of the blocks outside the log, and `log_write`
gives them, are reads and writes of an array that starts as the disk. The buffers that threads have
hold what is in the array, but for changes on their way to `log_write`. -/
theorem cache_refines_array {d : ℕ → Block} {es : List (T × Choice n)} {tr : List Obs}
    (h : Shows (Fires (step start)) (observe start) (boot T n d) es tr s) :
    s.Ring ∧
    (∀ b c, (s.buf b).dev = rootDev → (s.buf c).dev = rootDev →
      (s.buf b).blockno = (s.buf c).blockno → b = c) ∧
    (∀ b, 0 < (s.buf b).refcnt → ∀ e s', step start s e = some s' →
      (s'.buf b).dev = (s.buf b).dev ∧ (s'.buf b).blockno = (s.buf b).blockno) ∧
    (∀ b, (∃ u, b ∈ s.held u) ∨ (s.buf b).dev = rootDev ∧ (s.buf b).blockno ∈ s.pins →
      0 < (s.buf b).refcnt) ∧
    ∃ a, Run Plain d tr a ∧ ∀ u, ∀ b ∈ s.held u, ¬LogArea start (s.buf b).blockno →
    s.changed b = false →
      (s.buf b).data = a (s.buf b).blockno := by
  obtain ⟨a, hrun, hr⟩ := h.refines (R := Refines start) (boot_refines start d)
    fun s e s' a hr hs => hr.step hs
  refine ⟨hr.cache.ring, hr.cache.uniq, fun b hb e s' hs => ?_, fun b hb => ?_, a, hrun,
    fun u b hb ha hc => ?_⟩
  · obtain ⟨o, q, hedge, _, rfl⟩ := step_edge hs
    exact hr.cache.keeps (Edge.of_edge hedge) hb
  · rcases hb with ⟨u, hu⟩ | ⟨hd, hp⟩
    · exact hr.cache.refcnt_pos (.inl hu)
    · exact hr.cache.pinned_pos hd hp
  · have hlock : 0 < s.refs b := refs_pos (.inl hb)
    exact (hr.coherent.fine b).clean (hr.cache.dev b hlock) (hr.cache.valid u b (.inl hb)) ha hc

end

/-- One thread changes block 50 in a cache of three buffers, and commits. -/
def changeAndCommit : List (Unit × Choice 3) :=
  [.beginOp, .bread 50, .go, .go, .modify 0 fun _ => 7, .logWrite 0, .go, .brelse 0, .go,
    .endOp].map ((), ·) ++
  List.replicate 42 ((), .go)

theorem cache_refines_array_commit : ∃ tr, ∃ s : St Unit 3,
    Shows (Fires (step 2)) (observe 2) (boot Unit 3 fun _ _ => 0) changeAndCommit tr s ∧
    s.disk 50 0 = 7 ∧ s.disk 3 0 = 7 ∧ s.lh = [] ∧ s.committing = false ∧ s.Ring ∧
    ∃ a, Run Plain (fun _ _ => 0) tr a := by
  have hex : (exec (step 2) (boot Unit 3 fun _ _ => 0) changeAndCommit).any (fun s =>
      decide (s.disk 50 0 = 7 ∧ s.disk 3 0 = 7 ∧ s.lh = [] ∧ s.committing = false)) = true := by
    decide +kernel
  obtain ⟨s, hexec, hs⟩ := exec_any _ _ _ _ hex
  obtain ⟨tr, hshows⟩ : ∃ tr, Shows (Fires (step 2)) (observe 2) (boot Unit 3 fun _ _ => 0)
    changeAndCommit tr s :=
    (run_of_exec hexec).shows
  obtain ⟨h1, h2, h3, h4⟩ := of_decide_eq_true hs
  obtain ⟨hring, _, _, _, a, hrun, _⟩ := cache_refines_array hshows
  exact ⟨tr, s, hshows, h1, h2, h3, h4, hring, a, hrun⟩

/-- **Buffers are counted.** `refcnt` is the number of uses by threads and of pins by the log, a
thread has the sleep-locks of its buffers, and the disk holds the array but for the log and what is
pinned. -/
theorem buffers_counted [Fintype T] [DecidableEq T] {start : ℕ} {s : St T n} {d es tr}
    (h : Shows (Fires (step start)) (observe start) (boot T n d) es tr s) :
    (∀ b, (s.buf b).refcnt = s.refs b + s.pinned b) ∧
    (∀ u, ∀ b ∈ s.held u, (s.buf b).lock = some u) ∧
    ∃ a, Run Plain d tr a ∧ ∀ β, ¬LogArea start β → β ∉ s.pins → s.disk β = a β := by
  obtain ⟨a, hrun, hr⟩ := h.refines (R := Refines start) (boot_refines start d)
    fun s e s' a hr hs => hr.step hs
  refine ⟨hr.cache.refs, fun u b hb => ?_, a, hrun, hr.coherent.disk⟩
  by_contra hn
  have hl := hr.cache.locks u b
  rw [if_neg hn] at hl
  have := count_pos_iff.mpr hb
  omega

theorem buffers_counted_commit : ∃ tr, ∃ s : St Unit 3,
    Shows (Fires (step 2)) (observe 2) (boot Unit 3 fun _ _ => 0) changeAndCommit tr s ∧
    (s.buf 0).refcnt = s.refs 0 + s.pinned 0 := by
  obtain ⟨s, hexec, -⟩ := exec_any (step 2) (boot Unit 3 fun _ _ => 0) changeAndCommit
    (fun _ => true)
    (by decide +kernel)
  obtain ⟨tr, h⟩ := (run_of_exec hexec).shows
  exact ⟨tr, s, h, (buffers_counted h).1 0⟩

end Xv6.Bio
