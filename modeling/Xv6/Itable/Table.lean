/-
  The invariant of the inode table: no two entries in use are for one inode, and every entry is as
  `View.Ok` says.
-/
import Xv6.Itable.Edges
import Xv6.Itable.Entry

namespace Xv6.Itable

open Lib Role
open Function (comp_update update update_eq_self update_of_ne update_self)
open Fs (IType Dinode)

variable {T : Type} {n : ℕ}

structure Table [Fintype T] (s : St T n) : Prop where
  uniq : ∀ e x, 0 < (s.inode e).ref → 0 < (s.inode x).ref → (s.inode e).key = (s.inode x).key →
    e = x
  ok : ∀ e, (s.view e).Ok

theorem boot_table [Fintype T] (d : Key → Dinode) : Table (boot T n d) where
  uniq := nofun
  ok := fun e =>
    { refs := by simp [boot, St.view, View.own, Pc.role, putting]
      holder := nofun
      inside := nofun
      wanted := nofun
      filled := nofun
      freeing := nofun
      clean := nofun
      agree := nofun
      types := nofun }

section

variable [DecidableEq T] {s : St T n} {t u : T} {o : Op T n} {q : Pc n} {e x : Fin n}

/-! ## Views after a step -/

theorem view_role (s : St T n) (t : T) (q : Pc n) (x : Fin n) :
    (fun u => (update s.pc t q u).role x) =
      update (fun u => (s.pc u).role x) t (q.role x) :=
  comp_update (Pc.role x) s.pc t q

theorem view_cnt (f : T → List (Fin n)) (t : T) (l : List (Fin n)) (x : Fin n) :
    (fun u => (update f t l u).count x) = update (fun u => (f u).count x) t (l.count x) :=
  comp_update (fun l : List (Fin n) => l.count x) f t l

theorem role_call (r : Role) (e : Fin n) : (Pc.call r e).role e = some r := if_pos rfl

/-- A step that keeps the role of the thread. -/
theorem role_same (h : q.role x = (s.pc t).role x) :
    update (fun u => (s.pc u).role x) t (q.role x) = fun u => (s.pc u).role x := by
  rw [h]
  exact update_eq_self t _

/-- The entry that an operation changes. -/
def Op.entry : Op T n → Option (Fin n)
  | .share e | .recycle e _ | .acquiresleep e | .fill e | .modify e _ | .iupdate e _
  | .releasesleep e
  | .give e _ | .drop e | .claim e | .invalidate e | .unref e => some e
  | .skip | .allocate _ _ | .panic _ => none

/-- The entry that a step is about. -/
def Op.about : Op T n → Pc n → Option (Fin n)
  | .skip, .call _ e => some e
  | o, _ => o.entry

omit [DecidableEq T] in
theorem Op.entry_ne (h : o.about q ≠ some x) : o.entry ≠ some x := by
  cases o with
  | skip => exact nofun
  | _ => exact h

/-- A thread keeps its role at every entry that the step is not about. -/
theorem Edge.role_eq {pc : Pc n} (he : Edge s t pc o q) (hx : o.about q ≠ some x) :
    q.role x = pc.role x := by
  cases he with
  | iget hc | recycle hc => rcases hc with rfl | rfl <;> rfl
  | ilock e | acquiresleep e | fill e | claim e | itrunc e | clear e | invalidate e | unlock e
  | unref e =>
    have hne : e ≠ x := fun h => hx (congrArg some h)
    simp only [Pc.role, if_neg hne]
  | _ => rfl

theorem count_cons_other (l : List (Fin n)) (h : x ≠ e) : (e :: l).count x = l.count x :=
  List.count_cons_of_ne h.symm

theorem count_erase_other (l : List (Fin n)) (h : x ≠ e) : (l.erase e).count x = l.count x :=
  List.count_erase_of_ne h

theorem cnt_same {f : T → List (Fin n)} {l : List (Fin n)} (h : l.count x = (f t).count x) :
    (fun u => (update f t l u).count x) = fun u => (f u).count x := by
  rw [view_cnt, h]
  exact update_eq_self t _

/-- What an operation on another entry, or on none, leaves of a view. -/
theorem view_frame (hx : o.entry ≠ some x) (hq : q.role x = (s.pc t).role x) :
    (o.next s t q).view x = { s.view x with
      on := (o.apply s t).disk (s.inode x).key, live := (o.apply s t).panicked.isNone } := by
  have hrole := role_same hq
  cases o with
  | skip | allocate | panic => simp only [St.view, Op.next, Op.apply, view_role, hrole]
  | acquiresleep e | modify e d | iupdate e d | releasesleep e | invalidate e | unref e =>
    have hne : x ≠ e := fun h => hx (congrArg some h.symm)
    simp only [St.view, Op.next, Op.apply, St.setInode, view_role, hrole, update_of_ne hne]
  | fill e =>
    have hne : x ≠ e := fun h => hx (congrArg some h.symm)
    cases hv : (s.inode e).valid <;>
      simp only [St.view, Op.next, Op.apply, hv, Bool.false_eq_true, if_true, if_false, St.setInode,
        view_role, hrole, update_of_ne hne]
  | share e | recycle e k =>
    have hne : x ≠ e := fun h => hx (congrArg some h.symm)
    simp only [St.view, Op.next, Op.apply, St.setInode, St.setRefs, view_role, hrole,
      cnt_same (count_cons_other (s.refs t) hne), update_of_ne hne]
  | drop e | claim e =>
    have hne : x ≠ e := fun h => hx (congrArg some h.symm)
    simp only [St.view, Op.next, Op.apply, St.setInode, St.setRefs, view_role, hrole,
      cnt_same (count_erase_other (s.refs t) hne), update_of_ne hne]
  | give e u =>
    have hne : x ≠ e := fun h => hx (congrArg some h.symm)
    simp only [St.view, Op.next, Op.apply, St.setRefs, view_role, hrole,
      cnt_same (count_cons_other (update s.refs t ((s.refs t).erase e) u) hne),
      cnt_same (count_erase_other (s.refs t) hne)]

/-- The view of the entry that an operation changes. -/
theorem view_share : ((Op.share e).next s t q).view e = { s.view e with
    x := { s.inode e with ref := (s.inode e).ref + 1 }
    cnt := update (s.view e).cnt t ((s.view e).cnt t + 1)
    role := update (s.view e).role t (q.role e) } := by
  simp only [St.view, Op.next, Op.apply, St.setInode, St.setRefs, view_role, view_cnt,
    update_self, List.count_cons_self]
  rfl

theorem view_recycle {k : Key} : ((Op.recycle e k).next s t q).view e = { s.view e with
    x := { s.inode e with dev := k.1, inum := k.2, ref := 1, valid := false }
    on := s.disk k
    cnt := update (s.view e).cnt t ((s.view e).cnt t + 1)
    role := update (s.view e).role t (q.role e) } := by
  simp only [St.view, Op.next, Op.apply, St.setInode, St.setRefs, view_role, view_cnt,
    update_self, List.count_cons_self]
  rfl

theorem view_acquiresleep : ((Op.acquiresleep e).next s t q).view e = { s.view e with
    x := { s.inode e with lock := some t }
    role := update (s.view e).role t (q.role e) } := by
  simp only [St.view, Op.next, Op.apply, St.setInode, view_role, update_self]
  rfl

theorem view_skip : (Op.skip.next s t q).view e = { s.view e with
    role := update (s.view e).role t (q.role e) } := by
  simp only [St.view, Op.next, Op.apply, view_role]

theorem view_fill (hv : (s.inode e).valid = false) :
    ((Op.fill e).next s t q).view e = { s.view e with
    x := { s.inode e with d := (s.view e).on, valid := true }
    role := update (s.view e).role t (q.role e)
    live := (if (s.view e).on.type = .free then some Panic.noType else none).isNone } := by
  simp only [St.view, Op.next, Op.apply, hv, Bool.false_eq_true, if_false, St.setInode, view_role,
    update_self]
  rfl

theorem view_keep (hv : (s.inode e).valid = true) :
    ((Op.fill e).next s t q).view e = { s.view e with
    role := update (s.view e).role t (q.role e) } := by
  simp only [St.view, Op.next, Op.apply, hv, if_true, view_role]

theorem view_modify {d : Dinode} : ((Op.modify e d).next s t q).view e = { s.view e with
    x := { s.inode e with d := d }
    dirty := true
    role := update (s.view e).role t (q.role e) } := by
  simp only [St.view, Op.next, Op.apply, St.setInode, view_role, update_self]
  rfl

theorem view_iupdate {d : Dinode} : ((Op.iupdate e d).next s t q).view e = { s.view e with
    x := { s.inode e with d := d }
    on := d
    dirty := false
    role := update (s.view e).role t (q.role e) } := by
  have hkey : Inode.key { s.inode e with d := d } = (s.inode e).key := rfl
  simp only [St.view, Op.next, Op.apply, St.setInode, view_role, update_self, hkey]

theorem view_releasesleep : ((Op.releasesleep e).next s t q).view e = { s.view e with
    x := { s.inode e with lock := none }
    role := update (s.view e).role t (q.role e) } := by
  simp only [St.view, Op.next, Op.apply, St.setInode, view_role, update_self]
  rfl

theorem view_give : ((Op.give e u).next s t q).view e = { s.view e with
    cnt := update (update (s.view e).cnt t ((s.view e).cnt t - 1)) u
      (update (s.view e).cnt t ((s.view e).cnt t - 1) u + 1)
    role := update (s.view e).role t (q.role e) } := by
  have hu := congrFun (view_cnt s.refs t ((s.refs t).erase e) e) u
  simp only [St.view, Op.next, Op.apply, St.setRefs, view_role, view_cnt, List.count_cons_self,
    List.count_erase_self] at hu ⊢
  rw [hu]

theorem view_drop : ((Op.drop e).next s t q).view e = { s.view e with
    x := { s.inode e with ref := (s.inode e).ref - 1 }
    cnt := update (s.view e).cnt t ((s.view e).cnt t - 1)
    role := update (s.view e).role t (q.role e) } := by
  simp only [St.view, Op.next, Op.apply, St.setInode, St.setRefs, view_role, view_cnt,
    update_self, List.count_erase_self]
  rfl

theorem view_claim : ((Op.claim e).next s t q).view e = { s.view e with
    x := { s.inode e with lock := some t }
    cnt := update (s.view e).cnt t ((s.view e).cnt t - 1)
    role := update (s.view e).role t (q.role e) } := by
  simp only [St.view, Op.next, Op.apply, St.setInode, St.setRefs, view_role, view_cnt,
    update_self, List.count_erase_self]
  rfl

theorem view_invalidate : ((Op.invalidate e).next s t q).view e = { s.view e with
    x := { s.inode e with valid := false }
    role := update (s.view e).role t (q.role e) } := by
  simp only [St.view, Op.next, Op.apply, St.setInode, view_role, update_self]
  rfl

theorem view_unref : ((Op.unref e).next s t q).view e = { s.view e with
    x := { s.inode e with ref := (s.inode e).ref - 1 }
    role := update (s.view e).role t (q.role e) } := by
  simp only [St.view, Op.next, Op.apply, St.setInode, view_role, update_self]
  rfl

/-- Who an entry is for changes only when `iget` takes it, and a count grows only by `ip->ref++`. -/
theorem next_entry (hk : ∀ e k, o ≠ .recycle e k) : ((o.next s t q).inode x).key = (s.inode x).key ∧
    (((o.next s t q).inode x).ref ≤ (s.inode x).ref ∨ o = .share x) := by
  cases o with
  | skip | allocate | panic | give => exact ⟨rfl, .inl le_rfl⟩
  | recycle e k => exact absurd rfl (hk e k)
  | fill e =>
    cases hv : (s.inode e).valid with
    | true => simp only [Op.next, Op.apply, hv, if_true, le_refl, true_or, and_self]
    | false =>
      by_cases hx : x = e
      · simp [Op.next, Op.apply, hv, St.setInode, hx, Inode.key]
      · simp [Op.next, Op.apply, hv, St.setInode, update_of_ne hx]
  | share e | acquiresleep e | modify e | iupdate e | releasesleep e | drop e | claim e
  | invalidate e
  | unref e =>
    by_cases hx : x = e
    · simp [Op.next, Op.apply, St.setInode, St.setRefs, hx, Inode.key]
    · simp [Op.next, Op.apply, St.setInode, St.setRefs, update_of_ne hx]

theorem role_free (x : Fin n) : (Pc.free : Pc n).role x = none := rfl

theorem update_role (hq : q.role x = (s.pc t).role x) :
    update (s.view x).role t (q.role x) = (s.view x).role := role_same hq

omit [DecidableEq T] in
/-- A caller of `iget` has no role, before or after. -/
theorem gets_role {p : Pc n} {k : Key} (hp : s.pc t = p) (hc : p = .free ∨ p = .allocGot k)
    (x : Fin n) :
    (Pc.free : Pc n).role x = (s.pc t).role x := by
  rw [hp]
  rcases hc with rfl | rfl
  · rfl
  · rfl

/-! ## One step -/

variable [Fintype T]

omit [DecidableEq T] in
theorem View.Ok.halt {v : View T} (h : v.Ok) (l : Bool) (hl : v.live = true) :
    View.Ok { v with live := l } where
  refs := h.refs
  holder := h.holder
  inside := h.inside
  wanted := h.wanted
  filled := h.filled
  freeing := h.freeing
  clean := h.clean
  agree := h.agree
  types := fun _ => h.types hl

/-- An operation on another entry. -/
theorem Table.other (h : Table s) (hp : s.panicked = none) (hx : o.entry ≠ some x)
    (hq : q.role x = (s.pc t).role x)
    (hd : (o.apply s t).disk (s.inode x).key = s.disk (s.inode x).key ∨ (s.inode x).ref = 0 ∨
      (s.disk (s.inode x).key).type = .free) : ((o.next s t q).view x).Ok := by
  have hlive : (s.view x).live = true := by simp [St.view, hp]
  rw [view_frame hx hq]
  refine View.Ok.halt (v := { s.view x with on := (o.apply s t).disk (s.inode x).key }) ?_ _ hlive
  rcases hd with hd | hd
  · rw [hd]
    exact h.ok x
  · exact (h.ok x).disk _ (hd.imp_right fun hd => ⟨hlive, hd⟩)

omit [DecidableEq T] in
/-- A write of the inode of an entry in use is seen by no other entry in use. -/
theorem Table.key_ne (h : Table s) (he : 0 < (s.inode e).ref) (hx : x ≠ e) (d : Dinode) :
    update s.disk (s.inode e).key d (s.inode x).key = s.disk (s.inode x).key ∨
    (s.inode x).ref = 0 := by
  by_cases hr : (s.inode x).ref = 0
  · exact .inr hr
  · refine .inl (update_of_ne (fun hk => hx ?_) ..)
    exact h.uniq x e (Nat.pos_of_ne_zero hr) he hk

/-- The inode of an entry that the step is not about is written by an `ialloc` that finds it
    free. -/
theorem Table.disk_other (h : Table s) (he : Edge s t (s.pc t) o q) (hx : o.about q ≠ some x) :
    (o.apply s t).disk (s.inode x).key = s.disk (s.inode x).key ∨ (s.inode x).ref = 0 ∨
      (s.disk (s.inode x).key).type = .free ∧ ∃ k type, o = .allocate k type := by
  generalize hpc : s.pc t = pc at he
  cases he with
  | allocate dev type inum hfree =>
    by_cases hk : (s.inode x).key = (dev, inum)
    · exact .inr (.inr ⟨by rw [hk]; exact hfree, _, _, rfl⟩)
    · exact .inl (update_of_ne hk ..)
  | fill e => cases hv : (s.inode e).valid <;> exact .inl (by simp [Op.apply, hv, St.setInode])
  | iupdate e hl =>
    have hpos := (h.ok e).ref_pos ((h.ok e).own_of_lock hl)
    exact (h.key_ne hpos (fun hxe => hx (congrArg some hxe.symm)) _).imp_right .inl
  | itrunc e | clear e =>
    have hr : (s.view e).role t = some _ := (congrArg (Pc.role e) hpc).trans (role_call ..)
    have hpos := (h.ok e).ref_pos (View.own_pos (t := t) (by rw [hr]; rfl))
    exact (h.key_ne hpos (fun hxe => hx (congrArg some hxe.symm)) _).imp_right .inl
  | _ => exact .inl rfl

theorem Table.ok_next (h : Table s) (hp : s.panicked = none) (he : Edge s t (s.pc t) o q)
    (hen : o.Enabled s) (x : Fin n) : ((o.next s t q).view x).Ok := by
  by_cases hx : o.about q = some x
  swap
  · exact h.other hp (Op.entry_ne hx) (he.role_eq hx)
      ((h.disk_other he hx).imp_right (Or.imp_right And.left))
  -- the entry that the step is about
  generalize hpc : s.pc t = pc at he
  have hrole : (s.view x).role t = pc.role x := congrArg (Pc.role x) hpc
  have hok := h.ok x
  cases he with
  | ialloc | look | full | allocate | panic => cases hx
  | iget hc hlook =>
    cases hx
    rw [view_share, update_role (gets_role hpc hc x)]
    exact hok.share t (lookup_some hlook).1
  | recycle hc hlook hempty =>
    cases hx
    rw [view_recycle, update_role (gets_role hpc hc x)]
    exact hok.recycle t (empty_some hempty) _ _
  | idup e hmem =>
    cases hx
    rw [view_share, update_role (by rw [hpc])]
    exact hok.share t ((List.count_pos_iff.mpr hmem).trans_le (hok.cnt_le t))
  | ilock e hmem =>
    cases hx
    rw [view_skip, role_call]
    exact hok.wait (List.count_pos_iff.mpr hmem) hrole
  | acquiresleep e =>
    cases hx
    rw [view_acquiresleep, role_call]
    exact hok.acquire (hrole.trans (role_call ..)) hen
  | fill e =>
    cases hx
    have hr := hrole.trans (role_call ..)
    cases hv : (s.inode x).valid with
    | true =>
      rw [view_keep hv, role_free]
      exact hok.keep hr hv
    | false =>
      rw [view_fill hv, role_free]
      refine hok.fill hr _ fun hl hfree => ?_
      rw [if_pos hfree] at hl
      cases hl
  | modify e d hl hd =>
    cases hx
    rw [view_modify, update_role (by rw [hpc])]
    exact hok.modify hrole hl hd
  | iupdate e hl =>
    cases hx
    rw [view_iupdate]
    refine hok.iupdate hl ?_ ?_ rfl (by rintro ⟨⟩) ?_ fun _ => rfl
    all_goals simp [hrole, role_free, holds, putting]
  | iunlock e hl hd =>
    cases hx
    rw [view_releasesleep]
    refine hok.release hl hd ?_ rfl rfl rfl ?_
    all_goals simp [hrole, role_free, putting]
  | give e u hs =>
    cases hx
    rw [view_give, update_role (by rw [hpc])]
    exact hok.give hrole hs u
  | drop e hs hn =>
    cases hx
    rw [view_drop, update_role (by rw [hpc])]
    exact hok.drop hrole hs
  | claim e hs hr hv hl =>
    cases hx
    rw [view_claim, role_call]
    exact hok.claim hrole hs hv hen
  | itrunc e =>
    cases hx
    have hr := hrole.trans (role_call ..)
    rw [view_iupdate, role_call]
    refine hok.iupdate (hok.inside t (by rw [hr]; rfl)) ?_ ?_ rfl (fun _ => ?_) ?_ fun _ => rfl
    all_goals simp [hr, holds, putting, Role.freeing]
  | clear e =>
    cases hx
    have hr := hrole.trans (role_call ..)
    rw [view_iupdate, role_call]
    refine hok.iupdate (hok.inside t (by rw [hr]; rfl)) ?_ ?_ rfl (by rintro ⟨⟩) ?_ fun hne =>
      absurd rfl hne
    all_goals simp [hr, holds, putting]
  | invalidate e =>
    cases hx
    rw [view_invalidate, role_call]
    exact hok.invalidate (hrole.trans (role_call ..))
  | unlock e =>
    cases hx
    have hr := hrole.trans (role_call ..)
    have hl := hok.inside t (by rw [hr]; rfl)
    rw [view_releasesleep, role_call]
    refine hok.release hl ?_ ?_ rfl rfl rfl ?_
    · -- a copy that waits for its `iupdate` is locked by a thread that is not in a call
      cases hd : (s.view x).dirty with
      | false => rfl
      | true =>
        obtain ⟨u, hu, hn⟩ := hok.clean hd
        rw [hl] at hu
        cases hu
        rw [hr] at hn
        cases hn
    all_goals simp [hr, putting]
  | unref e =>
    cases hx
    rw [view_unref, role_free]
    exact hok.unref (hrole.trans (role_call ..))

theorem Table.uniq_next (h : Table s) (he : Edge s t (s.pc t) o q) (e x : Fin n)
    (h1 : 0 < ((o.next s t q).inode e).ref) (h2 : 0 < ((o.next s t q).inode x).ref)
    (hkey : ((o.next s t q).inode e).key = ((o.next s t q).inode x).key) : e = x := by
  by_cases hk : ∃ y k, o = .recycle y k
  · obtain ⟨y, k, rfl⟩ := hk
    -- no entry in use is for `k`, and now `y` is
    have hnone : s.lookup k = none := by
      generalize s.pc t = pc at he
      cases he with
      | recycle _ hlook _ => exact hlook
    have hy : ((Op.recycle y k).next s t q).inode y =
        { s.inode y with dev := k.1, inum := k.2, ref := 1, valid := false } := update_self ..
    have hne : ∀ z, z ≠ y → ((Op.recycle y k).next s t q).inode z = s.inode z :=
      fun z hz => update_of_ne hz ..
    by_cases hey : e = y <;> by_cases hxy : x = y
    · rw [hey, hxy]
    · rw [hne x hxy] at h2 hkey
      rw [hey, hy] at hkey
      exact absurd hkey.symm (lookup_none hnone h2)
    · rw [hne e hey] at h1 hkey
      rw [hxy, hy] at hkey
      exact absurd hkey (lookup_none hnone h1)
    · rw [hne e hey] at h1 hkey
      rw [hne x hxy] at h2 hkey
      exact h.uniq e x h1 h2 hkey
  · have hk' : ∀ y k, o ≠ .recycle y k := fun y k hy => hk ⟨y, k, hy⟩
    have hpos : ∀ z, 0 < ((o.next s t q).inode z).ref → 0 < (s.inode z).ref := by
      intro z hz
      rcases (next_entry (t := t) (q := q) hk' (x := z)).2 with hle | rfl
      · exact hz.trans_le hle
      · generalize s.pc t = pc at he
        cases he with
        | iget _ hlook => exact (lookup_some hlook).1
        | idup _ hmem => exact (List.count_pos_iff.mpr hmem).trans_le ((h.ok z).cnt_le t)
    rw [(next_entry hk').1, (next_entry hk').1] at hkey
    exact h.uniq e x (hpos e h1) (hpos x h2) hkey

theorem Table.next (h : Table s) (hp : s.panicked = none) (he : Edge s t (s.pc t) o q)
    (hen : o.Enabled s) : Table (o.next s t q) :=
  ⟨h.uniq_next he, h.ok_next hp he hen⟩

/-! ## Runs -/

/-- No two entries are for one inode, the counts are the numbers of references, and a copy that
nobody has locked is the inode on disk. -/
structure Sound (s : St T n) : Prop where
  uniq : ∀ e x, 0 < (s.inode e).ref → 0 < (s.inode x).ref → (s.inode e).dev = (s.inode x).dev →
    (s.inode e).inum = (s.inode x).inum → e = x
  refs : ∀ e, (s.inode e).ref =
    ∑ t, ((s.refs t).count e + if putting ((s.pc t).role e) = true then 1 else 0)
  agree : ∀ e, 0 < (s.inode e).ref → (s.inode e).valid = true → (s.inode e).lock = none →
    (s.inode e).d = s.disk (s.inode e).key

omit [DecidableEq T] in
theorem Table.sound (h : Table s) : Sound s where
  uniq := fun e x he hx hd hi => h.uniq e x he hx (Prod.ext hd hi)
  refs := fun e => (h.ok e).refs
  agree := fun e hr hv hl => by
    refine (h.ok e).agree hr hv ?_ fun t ht => ?_
    · cases hd : (s.view e).dirty with
      | false => rfl
      | true =>
        obtain ⟨t, ht, _⟩ := (h.ok e).clean hd
        exact absurd (hl.symm.trans ht) nofun
    · have hlock := (h.ok e).inside t (by rw [ht]; rfl)
      exact absurd (hl.symm.trans hlock) nofun

theorem table_of_run {ninodes : ℕ} {d : Key → Dinode} {tr : List (T × Choice T n)}
    (h : Run (Fires (step ninodes)) (boot T n d) tr s) : Table s := by
  refine h.inv_state (I := Table) (boot_table d) fun s i s' hs hstep => ?_
  obtain ⟨o, q, hp, he, hen, rfl⟩ := step_cases hstep
  exact hs.next hp (.of_edge he) hen

end

end Xv6.Itable
