/-
  One entry of the inode table by itself.

  `View` is what the table, the disk and the threads have to do with one entry. `View.Ok` is the
  part of the invariant that speaks of one entry: who has references, who holds the lock and why,
  and when the copy agrees with the disk. Every operation on the entry keeps it; so does a change
  of the inode on disk that does not go through the entry, as long as the entry is unused or the
  inode is free.
-/
import Xv6.Lib.Tally
import Xv6.Itable.Model

namespace Xv6.Itable

open Lib
open Function (update update_apply update_of_ne update_self)
open Fs (IType Dinode)

variable {T : Type} {n : ℕ}

/-! ## Roles -/

namespace Role

/-- In `ilock`. -/
def locking : Option Role → Bool
  | some .lockWait | some .lockFill => true
  | _ => false

/-- With the lock, which the caller of the function does not have. -/
def holds : Option Role → Bool
  | some .lockFill | some .putTrunc | some .putType | some .putInvalid | some .putUnlock => true
  | _ => false

/-- In `iput`, with a reference to give up. -/
def putting : Option Role → Bool
  | some .lockWait | some .lockFill | none => false
  | _ => true

/-- The inode is about to be freed on disk. -/
def freeing : Option Role → Bool
  | some .putTrunc | some .putType => true
  | _ => false

/-- The inode has been freed on disk, and the reference is still there. -/
def freed : Option Role → Bool
  | some .putInvalid | some .putUnlock | some .putLast => true
  | _ => false

theorem holds_of_freeing {r : Option Role} (h : freeing r = true) : holds r = true := by
  unfold freeing at h
  split at h <;> first | rfl | cases h

end Role

open Role

/-- The role of a thread for entry `e`. -/
def Pc.role (e : Fin n) : Pc n → Option Role
  | .call r x => if x = e then some r else none
  | _ => none

/-! ## Views -/

structure View (T : Type) where
  x : Inode T
  /-- The inode on disk. -/
  on : Dinode
  dirty : Bool
  /-- How many references a thread has. -/
  cnt : T → ℕ
  role : T → Option Role
  /-- Nothing has panicked. -/
  live : Bool

def St.view (s : St T n) (e : Fin n) : View T where
  x := s.inode e
  on := s.disk (s.inode e).key
  dirty := s.dirty e
  cnt := fun t => (s.refs t).count e
  role := fun t => (s.pc t).role e
  live := s.panicked.isNone

namespace View

/-- The references of a thread, with the one that its `iput` has still to give up. -/
def own (v : View T) (t : T) : ℕ := v.cnt t + if putting (v.role t) = true then 1 else 0

/-- No `iput` is between freeing the inode and marking the copy invalid. -/
def Fresh (v : View T) : Prop := ∀ t, v.role t ≠ some .putInvalid

structure Ok [Fintype T] (v : View T) : Prop where
  refs : v.x.ref = ∑ t, v.own t
  holder : ∀ t, v.x.lock = some t → 0 < v.cnt t ∨ holds (v.role t) = true ∧
    putting (v.role t) = true
  inside : ∀ t, holds (v.role t) = true → v.x.lock = some t
  wanted : ∀ t, locking (v.role t) = true → 0 < v.cnt t
  filled : ∀ t, v.x.lock = some t → holds (v.role t) = false → v.x.valid = true
  freeing : ∀ t, freeing (v.role t) = true → v.x.valid = true
  clean : v.dirty = true → ∃ t, v.x.lock = some t ∧ holds (v.role t) = false
  agree : 0 < v.x.ref → v.x.valid = true → v.dirty = false → v.Fresh → v.x.d = v.on
  types : v.live = true → 0 < v.x.ref → v.x.valid = true → v.Fresh →
    v.x.d.type ≠ .free ∧ v.on.type ≠ .free

section

variable [Fintype T] {v : View T} {t u : T}

/-- A thread with a reference is counted. -/
theorem Ok.own_le (h : v.Ok) (t : T) : v.own t ≤ v.x.ref := by
  rw [h.refs]
  exact le_sum v.own t

theorem Ok.cnt_le (h : v.Ok) (t : T) : v.cnt t ≤ v.x.ref :=
  (Nat.le_add_right _ _).trans (h.own_le t)

omit [Fintype T] in
theorem own_pos (h : putting (v.role t) = true) : 0 < v.own t := by
  unfold own
  rw [if_pos h]
  exact Nat.succ_pos _

/-- The holder of the lock has a reference. -/
theorem Ok.own_of_lock (h : v.Ok) (hl : v.x.lock = some t) : 0 < v.own t := by
  rcases h.holder t hl with hc | ⟨_, hp⟩
  · exact Nat.add_pos_left hc _
  · exact own_pos hp

theorem Ok.ref_pos (h : v.Ok) (ht : 0 < v.own t) : 0 < v.x.ref := ht.trans_le (h.own_le t)

theorem Ok.fresh (h : v.Ok) (hl : v.x.lock = some t) (hr : v.role t ≠ some .putInvalid) :
    v.Fresh := by
  intro u hu
  have hin := h.inside u (by rw [hu]; rfl)
  rw [hl] at hin
  cases hin
  exact hr hu

variable [DecidableEq T]

/-- Two threads with a reference are two references. -/
theorem Ok.two_le (h : v.Ok) (ht : 0 < v.own t) (hu : 0 < v.own u) (hne : t ≠ u) : 2 ≤ v.x.ref := by
  have hle := add_le_sum v.own hne
  rw [← h.refs] at hle
  omega

/-! ## Operations -/

variable {r : Option Role}

omit [Fintype T] in
theorem fresh_of_update (hr : v.role t ≠ some .putInvalid)
    (h : ∀ u, update v.role t r u ≠ some .putInvalid) : v.Fresh := by
  intro u
  by_cases hu : u = t
  · rw [hu]
    exact hr
  · have := h u
    rwa [update_of_ne hu] at this

/-- The references when thread `t` takes or gives some, or changes its role. -/
theorem Ok.refs_change {v' : View T} (h : v.Ok) (hc : ∀ u, u ≠ t → v'.cnt u = v.cnt u)
    (hr : ∀ u, u ≠ t → v'.role u = v.role u) (ht : v'.x.ref + v.own t = v.x.ref + v'.own t) :
    v'.x.ref = ∑ u, v'.own u := by
  have hsum := sum_change (t := t) (f := v.own) (g := v'.own) fun u hu => by
    unfold own
    rw [hc u hu, hr u hu]
  have hrefs := h.refs
  omega

/-- A change of the role alone. -/
theorem Ok.refs_role {v' : View T} (h : v.Ok) (hx : v'.x.ref = v.x.ref) (hc : v'.cnt = v.cnt)
    (hr : v'.role = update v.role t r) (hp : putting r = putting (v.role t)) :
    v'.x.ref = ∑ u, v'.own u := by
  refine h.refs_change (t := t) (fun u _ => congrFun hc u) (fun u hu => ?_) ?_
  · rw [hr, update_of_ne hu]
  · unfold own
    rw [hx, hc, hr, update_self, hp]

section

variable (h : v.Ok)

include h

theorem Ok.clean_role (hr : holds r = true → holds (v.role t) = true) (hd : v.dirty = true) :
    ∃ u, v.x.lock = some u ∧ holds (update v.role t r u) = false := by
  obtain ⟨u, hu, hn⟩ := h.clean hd
  exact ⟨u, hu, by grind [update_apply]⟩

/-- `ip->ref++` -/
theorem Ok.share (t : T) (hpos : 0 < v.x.ref) :
    Ok { v with x := { v.x with ref := v.x.ref + 1 }, cnt := update v.cnt t (v.cnt t + 1) } where
  refs := by
    refine h.refs_change (t := t) (fun u hu => update_of_ne hu ..) (fun _ _ => rfl) ?_
    simp only [own, update_self]
    omega
  holder := fun u hu => (h.holder u hu).imp_left fun hc => by grind [update_apply]
  inside := h.inside
  wanted := fun u hu => by
    have := h.wanted u hu
    grind [update_apply]
  filled := h.filled
  freeing := h.freeing
  clean := h.clean
  agree := fun _ => h.agree hpos
  types := fun hl _ => h.types hl hpos

omit [DecidableEq T] in
/-- An entry without references is not locked. -/
theorem Ok.lock_of_ref (hz : v.x.ref = 0) : v.x.lock ≠ some u := by
  intro hl
  have := h.ref_pos (h.own_of_lock hl)
  omega

/-- `iget` takes the entry. -/
theorem Ok.recycle (t : T) (hz : v.x.ref = 0) (k : Key) (d : Dinode) : Ok { v with
      x := { v.x with dev := k.1, inum := k.2, ref := 1, valid := false }
      on := d
      cnt := update v.cnt t (v.cnt t + 1) } where
  refs := by
    refine h.refs_change (t := t) (fun u hu => update_of_ne hu ..) (fun _ _ => rfl) ?_
    simp only [own, update_self]
    omega
  holder := fun u hu => absurd hu (h.lock_of_ref hz)
  inside := h.inside
  wanted := fun u hu => by
    have := h.wanted u hu
    grind [update_apply]
  filled := fun u hu => absurd hu (h.lock_of_ref hz)
  freeing := fun u hu => by
    exact absurd (h.inside u (holds_of_freeing hu)) (h.lock_of_ref hz)
  clean := h.clean
  agree := nofun
  types := nofun

/-- `ilock` waits for the lock. -/
theorem Ok.wait (hc : 0 < v.cnt t) (hr : v.role t = none) :
    Ok { v with role := update v.role t (some .lockWait) } where
  refs := h.refs_role rfl rfl rfl (by rw [hr]; rfl)
  holder := fun u hu => by
    have := h.holder u hu
    grind [update_apply]
  inside := fun u hu => h.inside u (by grind [update_apply, holds])
  wanted := fun u hu => by
    have := h.wanted u
    grind [update_apply]
  filled := fun u hu hn => h.filled u hu (by grind [update_apply, holds])
  freeing := fun u hu => h.freeing u (by grind [update_apply, Role.freeing])
  clean := h.clean_role nofun
  agree := fun hp hv hd hf => h.agree hp hv hd (fresh_of_update (by simp [hr]) hf)
  types := fun hl hp hv hf => h.types hl hp hv (fresh_of_update (by simp [hr]) hf)

/-- `acquiresleep` in `ilock`. -/
theorem Ok.acquire (hr : v.role t = some .lockWait) (hl : v.x.lock = none) : Ok { v with
      x := { v.x with lock := some t }, role := update v.role t (some .lockFill) } where
  refs := h.refs_role rfl rfl rfl (by rw [hr]; rfl)
  holder := fun u hu => by
    cases hu
    exact .inl (h.wanted t (by rw [hr]; rfl))
  inside := fun u hu => by
    have := h.inside u
    grind [update_apply]
  wanted := fun u hu => h.wanted u (by grind [update_apply, locking])
  filled := fun u hu hn => by
    cases hu
    simp [holds] at hn
  freeing := fun u hu => h.freeing u (by grind [update_apply, Role.freeing])
  clean := fun hd => by
    obtain ⟨u, hu, _⟩ := h.clean hd
    simp [hl] at hu
  agree := fun hp hv hd hf => h.agree hp hv hd (fresh_of_update (by simp [hr]) hf)
  types := fun hl hp hv hf => h.types hl hp hv (fresh_of_update (by simp [hr]) hf)

/-- `ilock` finds a copy that is valid. -/
theorem Ok.keep (hr : v.role t = some .lockFill) (hv : v.x.valid = true) :
    Ok { v with role := update v.role t none } where
  refs := h.refs_role rfl rfl rfl (by rw [hr]; rfl)
  holder := fun u hu => by
    have := h.holder u hu
    grind [update_apply, putting]
  inside := fun u hu => h.inside u (by grind [update_apply, holds])
  wanted := fun u hu => h.wanted u (by grind [update_apply, locking])
  filled := fun _ _ _ => hv
  freeing := fun _ _ => hv
  clean := h.clean_role nofun
  agree := fun hp hv hd hf => h.agree hp hv hd (fresh_of_update (by simp [hr]) hf)
  types := fun hl hp hv hf => h.types hl hp hv (fresh_of_update (by simp [hr]) hf)

/-- `ilock` reads the inode from the disk; a free inode is a panic. -/
theorem Ok.fill (hr : v.role t = some .lockFill) (l : Bool) (hl : l = true → v.on.type ≠ .free) :
    Ok { v with
      x := { v.x with d := v.on, valid := true }
      role := update v.role t none
      live := l } where
  refs := h.refs_role rfl rfl rfl (by rw [hr]; rfl)
  holder := fun u hu => by
    have := h.holder u hu
    grind [update_apply, putting]
  inside := fun u hu => h.inside u (by grind [update_apply, holds])
  wanted := fun u hu => h.wanted u (by grind [update_apply, locking])
  filled := fun _ _ _ => rfl
  freeing := fun _ _ => rfl
  clean := h.clean_role nofun
  agree := fun _ _ _ _ => rfl
  types := fun h1 _ _ _ => ⟨hl h1, hl h1⟩

omit [DecidableEq T] in
/-- The holder of the lock changes the copy. -/
theorem Ok.modify (hr : v.role t = none) (hl : v.x.lock = some t) {d : Dinode}
    (hd : d.type = v.x.d.type) : Ok { v with x := { v.x with d := d }, dirty := true } where
  refs := h.refs
  holder := h.holder
  inside := h.inside
  wanted := h.wanted
  filled := h.filled
  freeing := h.freeing
  clean := fun _ => ⟨t, hl, by rw [hr]; rfl⟩
  agree := nofun
  types := fun h1 hp hv hf => by
    obtain ⟨hx, hon⟩ := h.types h1 hp hv hf
    exact ⟨fun he => hx (hd.symm.trans he), hon⟩

/-- `iupdate` by the holder of the lock, which goes on in a role that is as good. -/
theorem Ok.iupdate (hl : v.x.lock = some t) {d : Dinode} (hh : holds r = holds (v.role t))
    (hp : putting r = putting (v.role t)) (hk : locking r = false)
    (hf : Role.freeing r = true → Role.freeing (v.role t) = true) (hs : v.role t ≠ some .putInvalid)
    (hd : r ≠ some .putInvalid → d.type = v.x.d.type) : Ok { v with
      x := { v.x with d := d }, on := d, dirty := false, role := update v.role t r } where
  refs := h.refs_role rfl rfl rfl hp
  holder := fun u hu => by
    have := h.holder u hu
    grind [update_apply]
  inside := fun u hu => h.inside u (by grind [update_apply])
  wanted := fun u hu => h.wanted u (by grind [update_apply])
  filled := fun u hu hn => h.filled u hu (by grind [update_apply])
  freeing := fun u hu => h.freeing u (by grind [update_apply])
  clean := nofun
  agree := fun _ _ _ _ => rfl
  types := fun h1 hp hv hfr => by
    have hr : r ≠ some .putInvalid := by simpa using hfr t
    have hx := (h.types h1 hp hv (fresh_of_update hs hfr)).1
    rw [← hd hr] at hx
    exact ⟨hx, hx⟩

/-- `releasesleep`, in `iunlock` or in `iput`. -/
theorem Ok.release (hl : v.x.lock = some t) (hd : v.dirty = false)
    (hp : putting r = putting (v.role t)) (hn : holds r = false) (hk : locking r = false)
    (hf : Role.freeing r = false) (hs : v.role t ≠ some .putInvalid) :
    Ok { v with x := { v.x with lock := none }, role := update v.role t r } where
  refs := h.refs_role rfl rfl rfl hp
  holder := nofun
  inside := fun u hu => by
    have := h.inside u
    grind [update_apply]
  wanted := fun u hu => h.wanted u (by grind [update_apply])
  filled := nofun
  freeing := fun u hu => h.freeing u (by grind [update_apply])
  clean := fun hd' => absurd hd' (by simp [hd])
  agree := fun hp hv hd hf => h.agree hp hv hd (fresh_of_update hs hf)
  types := fun hl hp hv hf => h.types hl hp hv (fresh_of_update hs hf)

end

/-- The thread has a reference that it does not need for the lock. -/
def Spare (v : View T) (t : T) : Prop := (if v.x.lock = some t then 1 else 0) < v.cnt t

/-- A reference goes to another thread. -/
theorem Ok.give (h : v.Ok) (hr : v.role t = none) (hs : v.Spare t) (u : T) :
    Ok { v with
      cnt := update (update v.cnt t (v.cnt t - 1)) u
        (update v.cnt t (v.cnt t - 1) u + 1) } where
  refs := by
    have hpos : 0 < v.cnt t := Nat.zero_lt_of_lt hs
    -- the reference leaves `t` before it reaches `u`
    have h1 := sum_change (t := t) (f := v.own)
      (g := own { v with cnt := update v.cnt t (v.cnt t - 1) })
      fun w hw => by simp only [own, update_of_ne hw]
    have h2 := sum_change (t := u) (f := own { v with cnt := update v.cnt t (v.cnt t - 1) })
      (g := own { v with
        cnt := update (update v.cnt t (v.cnt t - 1)) u
          (update v.cnt t (v.cnt t - 1) u + 1) })
      fun w hw => by simp only [own, update_of_ne hw]
    have hrefs := h.refs
    simp only [own, update_self] at h1 h2 hrefs ⊢
    omega
  holder := fun w hw => by
    have := h.holder w hw
    unfold Spare at hs
    grind [update_apply, holds]
  inside := h.inside
  wanted := fun w hw => by
    have := h.wanted w hw
    grind [update_apply, locking]
  filled := h.filled
  freeing := h.freeing
  clean := h.clean
  agree := h.agree
  types := h.types

/-- `ip->ref--` -/
theorem Ok.drop (h : v.Ok) (hr : v.role t = none) (hs : v.Spare t) : Ok { v with
      x := { v.x with ref := v.x.ref - 1 }, cnt := update v.cnt t (v.cnt t - 1) } where
  refs := by
    have hpos : 0 < v.cnt t := Nat.zero_lt_of_lt hs
    have hle := h.cnt_le t
    refine h.refs_change (t := t) (fun u hu => update_of_ne hu ..) (fun _ _ => rfl) ?_
    simp only [own, update_self]
    omega
  holder := fun w hw => by
    have := h.holder w hw
    unfold Spare at hs
    grind [update_apply, holds]
  inside := h.inside
  wanted := fun w hw => by
    have := h.wanted w hw
    grind [update_apply, locking]
  filled := h.filled
  freeing := h.freeing
  clean := h.clean
  agree := fun hp => h.agree (Nat.lt_of_lt_of_le hp (Nat.sub_le ..))
  types := fun hl hp => h.types hl (Nat.lt_of_lt_of_le hp (Nat.sub_le ..))

/-- `iput` finds the last reference to an inode without links. -/
theorem Ok.claim (h : v.Ok) (hr : v.role t = none) (hs : v.Spare t) (hv : v.x.valid = true)
    (hl : v.x.lock = none) :
    Ok { v with
      x := { v.x with lock := some t }
      cnt := update v.cnt t (v.cnt t - 1)
      role := update v.role t (some .putTrunc) } where
  refs := by
    have hpos : 0 < v.cnt t := Nat.zero_lt_of_lt hs
    refine h.refs_change (t := t) (fun u hu => update_of_ne hu ..) (fun u hu => update_of_ne hu ..)
      ?_
    simp only [own, update_self, hr, putting]
    simp only [if_true, Bool.false_eq_true, if_false]
    omega
  holder := fun u hu => by
    cases hu
    exact .inr (by simp [holds, putting])
  inside := fun u hu => by
    have := h.inside u
    grind [update_apply]
  wanted := fun u hu => by
    have := h.wanted u
    grind [update_apply, locking]
  filled := fun u hu hn => by
    cases hu
    simp [holds] at hn
  freeing := fun _ _ => hv
  clean := fun hd => by
    obtain ⟨u, hu, _⟩ := h.clean hd
    simp [hl] at hu
  agree := fun hp hv hd hf => h.agree hp hv hd (fresh_of_update (by simp [hr]) hf)
  types := fun hl hp hv hf => h.types hl hp hv (fresh_of_update (by simp [hr]) hf)

/-- `ip->valid = 0` in `iput`. -/
theorem Ok.invalidate (h : v.Ok) (hr : v.role t = some .putInvalid) : Ok { v with
      x := { v.x with valid := false }, role := update v.role t (some .putUnlock) } where
  refs := h.refs_role rfl rfl rfl (by rw [hr]; rfl)
  holder := fun u hu => by
    have := h.holder u hu
    grind [update_apply, holds, putting]
  inside := fun u hu => h.inside u (by grind [update_apply, holds])
  wanted := fun u hu => h.wanted u (by grind [update_apply, locking])
  filled := fun u hu hn => by
    have := h.inside t (by rw [hr]; rfl)
    grind [update_apply, holds]
  freeing := fun u hu => by
    have h1 := h.inside t (by rw [hr]; rfl)
    have h2 := h.inside u
    have h3 := holds_of_freeing (r := v.role u)
    grind [update_apply, Role.freeing]
  clean := h.clean_role fun _ => by rw [hr]; rfl
  agree := nofun
  types := nofun

/-- The last `ip->ref--` of an `iput` that freed the inode. -/
theorem Ok.unref (h : v.Ok) (hr : v.role t = some .putLast) :
    Ok { v with x := { v.x with ref := v.x.ref - 1 }, role := update v.role t none } where
  refs := by
    have hle := h.own_le t
    refine h.refs_change (t := t) (fun _ _ => rfl) (fun u hu => update_of_ne hu ..) ?_
    simp only [own, update_self, hr, putting, if_true, Bool.false_eq_true, if_false] at hle ⊢
    omega
  holder := fun u hu => by
    have := h.holder u hu
    grind [update_apply, holds]
  inside := fun u hu => h.inside u (by grind [update_apply, holds])
  wanted := fun u hu => h.wanted u (by grind [update_apply, locking])
  filled := fun u hu hn => h.filled u hu (by grind [update_apply, holds])
  freeing := fun u hu => h.freeing u (by grind [update_apply, Role.freeing])
  clean := h.clean_role nofun
  agree := fun hp hv hd hf => h.agree (Nat.lt_of_lt_of_le hp (Nat.sub_le ..)) hv hd
    (fresh_of_update (by simp [hr]) hf)
  types := fun hl hp hv hf => h.types hl (Nat.lt_of_lt_of_le hp (Nat.sub_le ..)) hv
    (fresh_of_update (by simp [hr]) hf)

omit [DecidableEq T] in
/-- The inode on disk changes behind the entry, which is unused or for a free inode. -/
theorem Ok.disk (h : v.Ok) (d : Dinode) (hz : v.x.ref = 0 ∨ v.live = true ∧ v.on.type = .free) :
    Ok { v with on := d } where
  refs := h.refs
  holder := h.holder
  inside := h.inside
  wanted := h.wanted
  filled := h.filled
  freeing := h.freeing
  clean := h.clean
  agree := fun hp hv _ hf => by
    rcases hz with hz | ⟨hl, hz⟩
    · exact absurd hz hp.ne'
    · exact absurd hz (h.types hl hp hv hf).2
  types := fun hl hp hv hf => by
    rcases hz with hz | ⟨_, hz⟩
    · exact absurd hz hp.ne'
    · exact absurd hz (h.types hl hp hv hf).2

end

end View

end Xv6.Itable
