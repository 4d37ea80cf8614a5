/-
  When `iput` frees an inode.

  `iput` releases `itable.lock` while it frees an inode, and its reference stays counted until the
  end. `ialloc` may give the number away again before that, and a thread that drops the new inode
  in between does not see that its reference is the last one that counts: the freeing `iput` then
  takes the count to 0, and an inode without links and without references stays on the disk
  (`put_leaks_inode`).

  `Orderly` is what keeps this from happening: `iget` is for inodes that have a link, an inode that
  may have none is locked once before it is dropped, and no `iput` of an entry starts while another
  one is freeing it. In such runs `iput` frees exactly when it drops the last reference to an inode
  without links (`iput_frees_last`).
-/
import Xv6.Itable.Table

namespace Xv6.Itable

open Lib Role Option
open Function (update update_of_ne update_self)
open Fs (IType Dinode)

variable {T : Type} {n : ℕ}

/-! ## The condition -/

/-- The inode is allocated and has a link. -/
def Linked (d : Dinode) : Prop := d.type ≠ .free ∧ d.nlink ≠ 0

/-- A name leads to the inode of an `iget`, and the last `iput` knows the link count. -/
def Careful (s : St T n) (i : T × Choice T n) : Prop :=
  match i.2 with
  | .iget k => Linked (s.disk k)
  | .iput e => (s.inode e).ref = 1 → (s.inode e).valid = false → (s.disk (s.inode e).key).nlink ≠ 0
  | _ => True

/-- No `iput` starts while another one is freeing the inode. -/
def Apart (s : St T n) (i : T × Choice T n) : Prop :=
  match i.2 with
  | .iput e => ∀ u, putting ((s.pc u).role e) = false
  | _ => True

def Orderly (s : St T n) (i : T × Choice T n) : Prop := Careful s i ∧ Apart s i

/-- `Orderly`, for the operation that the step comes to. -/
def Op.Meets (s : St T n) (t : T) (pc : Pc n) : Op T n → Prop
  | .share e => pc = .free → e ∉ s.refs t → Linked (s.disk (s.inode e).key)
  | .recycle _ k => pc = .free → Linked (s.disk k)
  | .drop e =>
    ((s.inode e).ref = 1 → (s.inode e).valid = false → (s.disk (s.inode e).key).nlink ≠ 0) ∧
      ∀ u, putting ((s.pc u).role e) = false
  | .claim e => ∀ u, putting ((s.pc u).role e) = false
  | _ => True

section

variable [DecidableEq T] {ninodes : ℕ} {s s' : St T n} {t u : T} {o : Op T n} {pc q : Pc n}
  {e x : Fin n} {k : Key}

omit [DecidableEq T] in
theorem meets_of_iget {pc : Pc n} (hl : pc = .free → Linked (s.disk k))
    (h : Itable.iget s k pc = (o, q)) : o.Meets s t pc := by
  unfold Itable.iget at h
  split at h
  · rename_i hlook
    cases h
    exact fun hpc _ => (lookup_some hlook).2 ▸ hl hpc
  · split at h
    · cases h
      exact hl
    · cases h
      trivial

theorem meets_of_edge {c : Choice T n} (ho : Orderly s (t, c))
    (h : edge ninodes s t pc c = some (o, q)) : o.Meets s t pc := by
  cases pc with
  | call r e => cases c <;> cases r <;> cases h <;> trivial
  | alloc dev type inum =>
    cases c with
    | go =>
      obtain h := some.inj h
      unfold Itable.ialloc at h
      split at h
      · split at h <;> cases h <;> trivial
      · cases h
        trivial
    | _ => cases h
  | allocGot k =>
    cases c with
    | go => exact meets_of_iget nofun (some.inj h)
    | _ => cases h
  | free =>
    cases c with
    | go => cases h
    | ialloc dev type =>
      obtain ⟨_, h⟩ := Option.ite_none_left_eq_some.mp h
      cases h
      trivial
    | iget k => exact meets_of_iget (fun _ => ho.1) (some.inj h)
    | idup e =>
      obtain ⟨he, h⟩ := Option.ite_none_right_eq_some.mp h
      cases h
      exact fun _ hn => absurd he hn
    | ilock e =>
      obtain ⟨_, h⟩ := Option.ite_none_right_eq_some.mp h
      unfold Itable.ilock at h
      split at h <;> cases h <;> trivial
    | iunlock e =>
      obtain ⟨_, h⟩ := Option.ite_none_right_eq_some.mp h
      unfold Itable.iunlock at h
      split at h <;> cases h <;> trivial
    | iput e =>
      obtain ⟨_, h⟩ := Option.ite_none_right_eq_some.mp h
      unfold Itable.iput at h
      split at h <;> cases h
      · exact ho.2
      · exact ho
    | modify e d | iupdate e | give e u =>
      obtain ⟨_, h⟩ := Option.ite_none_right_eq_some.mp h
      cases h
      trivial

end

/-! ## One entry -/

namespace View

/-- What an entry has to do with the life of its inode; `res` says that an `ialloc` has marked the
inode and not called `iget` yet. -/
structure Alive (v : View T) (res : Prop) : Prop where
  used : ∀ t, 0 < v.cnt t → v.on.type ≠ .free ∧ (∀ u, freeing (v.role u) = false) ∧ ¬res
  alone : ∀ t, freeing (v.role t) = true → v.x.ref = 1 ∧ v.x.d.nlink = 0 ∧ ¬res
  window : ∀ t, freed (v.role t) = true → v.on.type = .free ∨ res ∨ ∃ u, 0 < v.cnt u

variable {v v' : View T} {res : Prop} {t : T}

/-- A thread has a reference to an inode that is allocated. -/
theorem Alive.taken (hc : 0 < v.cnt t) (h1 : v.on.type ≠ .free)
    (h2 : ∀ u, freeing (v.role u) = false) (h3 : ¬res) : v.Alive res where
  used := fun _ _ => ⟨h1, h2, h3⟩
  alone := fun u hu => absurd hu (by simp [h2 u])
  window := fun _ _ => .inr (.inr ⟨t, hc⟩)

/-- An operation that leaves the references, the inode on disk and the progress of every `iput`. -/
theorem Alive.quiet (h : v.Alive res) (hc : v'.cnt = v.cnt) (hon : v'.on.type = v.on.type)
    (href : v'.x.ref = v.x.ref) (hf : ∀ u, freeing (v'.role u) = freeing (v.role u))
    (hg : ∀ u, freed (v'.role u) = freed (v.role u))
    (hd : ∀ u, freeing (v.role u) = true → v'.x.d.nlink = v.x.d.nlink) : v'.Alive res where
  used := fun u hu => by
    rw [hc] at hu
    simp only [hon, hf]
    exact h.used u hu
  alone := fun u hu => by
    rw [hf] at hu
    rw [href, hd u hu]
    exact h.alone u hu
  window := fun u hu => by
    rw [hg] at hu
    rw [hon, hc]
    exact h.window u hu

variable {r : Option Role}

theorem putting_of_freeing (h : freeing r = true) : putting r = true := by
  unfold freeing at h
  split at h <;> first | rfl | cases h

theorem putting_of_freed (h : freed r = true) : putting r = true := by
  unfold freed at h
  split at h <;> first | rfl | cases h

theorem not_freeing (h : putting r = false) : freeing r = false := by
  cases hf : freeing r with
  | false => rfl
  | true =>
    rw [putting_of_freeing hf] at h
    cases h

/-- No `iput` is freeing the inode. -/
theorem Alive.of_not_putting (h : ∀ u, 0 < v.cnt u → v.on.type ≠ .free ∧ ¬res)
    (hp : ∀ u, putting (v.role u) = false) : v.Alive res where
  used := fun u hu => ⟨(h u hu).1, fun w => not_freeing (hp w), (h u hu).2⟩
  alone := fun u hu => by simpa [hp u] using putting_of_freeing hu
  window := fun u hu => by simpa [hp u] using putting_of_freed hu

variable [Fintype T]

/-- Nobody has anything to do with an entry that is not in use. -/
theorem Ok.idle (h : v.Ok) (hz : v.x.ref = 0) :
    (∀ u, v.cnt u = 0) ∧ ∀ u, putting (v.role u) = false := by
  refine ⟨fun u => ?_, fun u => ?_⟩
  · have := h.cnt_le u
    omega
  · cases hp : putting (v.role u) with
    | false => rfl
    | true =>
      have := h.ref_pos (own_pos hp)
      omega

variable [DecidableEq T]

omit [Fintype T] in
/-- What holds of every role stays, where it is the same for the new one. -/
theorem update_same {β : Type} (f : Option Role → β) (h : f r = f (v.role t)) (u : T) :
    f (update v.role t r u) = f (v.role u) := by
  by_cases hu : u = t
  · rw [hu, update_self, h]
  · rw [update_of_ne hu]

omit [Fintype T] in
/-- The same, with a new role for the thread. -/
theorem Alive.moves (h : v.Alive res) (hr : v'.role = update v.role t r)
    (hf : freeing r = freeing (v.role t)) (hg : freed r = freed (v.role t)) (hc : v'.cnt = v.cnt)
    (hon : v'.on.type = v.on.type) (href : v'.x.ref = v.x.ref)
    (hd : ∀ u, freeing (v.role u) = true → v'.x.d.nlink = v.x.d.nlink) : v'.Alive res := by
  refine h.quiet hc hon href ?_ ?_ hd
  · rw [hr]
    exact update_same freeing hf
  · rw [hr]
    exact update_same freed hg

omit [DecidableEq T] in
/-- Between calls the holder of the lock has a reference of its own. -/
theorem Ok.cnt_of_lock (h : v.Ok) (hl : v.x.lock = some t) (hr : v.role t = none) :
    0 < v.cnt t := by
  refine (h.holder t hl).resolve_right fun hh => ?_
  rw [hr] at hh
  cases hh.1

omit [DecidableEq T] in
/-- Nobody frees an inode that another thread has locked. -/
theorem Ok.not_freeing (h : v.Ok) (hl : v.x.lock = some t) (ht : Role.freeing (v.role t) = false)
    (u : T) : Role.freeing (v.role u) = false := by
  cases hf : Role.freeing (v.role u) with
  | false => rfl
  | true =>
    have hu := h.inside u (holds_of_freeing hf)
    rw [hl] at hu
    cases hu
    rw [ht] at hf
    cases hf

/-- The `iput` that is about to free an inode has the only reference. -/
theorem Alive.only (h : v.Alive res) (hok : v.Ok) (ht : freeing (v.role t) = true) :
    (∀ u, v.cnt u = 0) ∧ ∀ u, putting (v.role u) = true → u = t := by
  obtain ⟨href, -, -⟩ := h.alone t ht
  have hput := putting_of_freeing ht
  refine ⟨fun u => ?_, fun u hu => ?_⟩
  · by_contra hc
    have := (h.used u (Nat.pos_of_ne_zero hc)).2.1 t
    rw [ht] at this
    cases this
  · by_contra hne
    have := hok.two_le (own_pos hu) (own_pos hput) hne
    omega

/-- `iput` starts to free an inode. -/
theorem Alive.claim (hok : v.Ok) (hc : 0 < v.cnt t) (href : v.x.ref = 1) (hl : v.x.d.nlink = 0)
    (hres : ¬res) (hp : ∀ u, putting (v.role u) = false) :
    Alive { v with
      x := { v.x with lock := some t }
      cnt := update v.cnt t (v.cnt t - 1)
      role := update v.role t (some .putTrunc) } res where
  used := fun u hu => by
    -- the one reference is that of the `iput`
    exfalso
    have hle := hok.cnt_le t
    by_cases hut : u = t
    · simp only [hut, update_self] at hu
      omega
    · simp only [update_of_ne hut] at hu
      have := hok.two_le (Nat.add_pos_left hu _) (Nat.add_pos_left hc _) hut
      omega
  alone := fun _ _ => ⟨href, hl, hres⟩
  window := fun u hu => by
    by_cases hut : u = t
    · simp only [hut, update_self] at hu
      cases hu
    · simp only [update_of_ne hut] at hu
      simpa [hp u] using putting_of_freed hu

/-- `iput` truncates an inode, or frees it. -/
theorem Alive.free (h : v.Alive res) (hok : v.Ok) (ht : freeing (v.role t) = true)
    {d : Dinode} (hf : freeing r = true → d.nlink = v.x.d.nlink)
    (hg : freed r = true → d.type = .free) :
    Alive { v with
      x := { v.x with d := d }, on := d, dirty := false, role := update v.role t r } res where
  used := fun u hu => absurd ((h.only hok ht).1 u) hu.ne'
  alone := fun u hu => by
    obtain ⟨h1, h2, h3⟩ := h.alone t ht
    by_cases hut : u = t
    · simp only [hut, update_self] at hu
      exact ⟨h1, (hf hu).trans h2, h3⟩
    · simp only [update_of_ne hut] at hu
      exact absurd ((h.only hok ht).2 u (putting_of_freeing hu)) hut
  window := fun u hu => by
    by_cases hut : u = t
    · simp only [hut, update_self] at hu
      exact .inl (hg hu)
    · simp only [update_of_ne hut] at hu
      exact absurd ((h.only hok ht).2 u (putting_of_freed hu)) hut

/-- `iput` is through. -/
theorem Alive.unref (h : v.Alive res) (hok : v.Ok) (hr : v.role t = some .putLast) :
    Alive { v with x := { v.x with ref := v.x.ref - 1 }, role := update v.role t none } res where
  used := fun u hu => by
    obtain ⟨h1, h2, h3⟩ := h.used u hu
    exact ⟨h1, fun w => (update_same freeing (by rw [hr]; rfl) w).trans (h2 w), h3⟩
  alone := fun u hu => by
    exfalso
    have hfree : freeing (v.role u) = true :=
      (update_same freeing (by rw [hr]; rfl) u).symm.trans hu
    have hput : putting (v.role t) = true := by
      rw [hr]
      rfl
    have hut : u ≠ t := by
      rintro rfl
      rw [hr] at hfree
      cases hfree
    have := hok.two_le (own_pos (putting_of_freeing hfree)) (own_pos hput) hut
    have := (h.alone u hfree).1
    omega
  window := fun u hu => by
    have hut : u ≠ t := by
      rintro rfl
      simp only [update_self] at hu
      cases hu
    simp only [update_of_ne hut] at hu
    exact h.window u hu

end View

/-! ## The invariant -/

/-- The type that `ialloc` looks for an inode for. -/
def Pc.kind : Pc n → Option IType
  | .alloc _ type _ => some type
  | _ => none

/-- The inode that `ialloc` has marked, before it calls `iget`. -/
def Pc.reserves : Pc n → Option Key
  | .allocGot k => some k
  | _ => none

def St.Reserved (s : St T n) (k : Key) : Prop := ∃ u, (s.pc u).reserves = some k

structure Lives (s : St T n) : Prop where
  kinds : ∀ t, (s.pc t).kind ≠ some .free
  fresh : ∀ k, s.Reserved k → (s.disk k).type ≠ .free ∧ (s.disk k).nlink = 0
  one : ∀ t u k, (s.pc t).reserves = some k → (s.pc u).reserves = some k → t = u
  alive : ∀ e, (s.view e).Alive (s.Reserved (s.inode e).key)

theorem boot_lives (d : Key → Dinode) : Lives (boot T n d) where
  kinds := nofun
  fresh := fun _ ⟨_, h⟩ => nomatch h
  one := nofun
  alive := fun _ =>
    { used := nofun
      alone := nofun
      window := nofun }

section

variable [DecidableEq T] {s : St T n} {t u : T} {o : Op T n} {q : Pc n} {e x : Fin n} {k : Key}

theorem next_pc_self : (o.next s t q).pc t = q := update_self ..

theorem next_pc_ne (hu : u ≠ t) : (o.next s t q).pc u = s.pc u := update_of_ne hu ..

theorem Lives.kinds_next (h : Lives s) (hq : q.kind ≠ some .free) (u : T) :
    ((o.next s t q).pc u).kind ≠ some .free := by
  by_cases hu : u = t
  · rw [hu, next_pc_self]
    exact hq
  · rw [next_pc_ne hu]
    exact h.kinds u

/-- A thread that has marked an inode after the step has done so before, or does it now. -/
theorem reserves_next (h : ((o.next s t q).pc u).reserves = some k) :
    (s.pc u).reserves = some k ∧ u ≠ t ∨ u = t ∧ q.reserves = some k := by
  by_cases hu : u = t
  · rw [hu, next_pc_self] at h
    exact .inr ⟨hu, h⟩
  · rw [next_pc_ne hu] at h
    exact .inl ⟨h, hu⟩

/-- The marks of other threads stay. -/
theorem reserved_next (hq : q.reserves = (s.pc t).reserves) :
    (o.next s t q).Reserved k ↔ s.Reserved k := by
  have hsame : ∀ u, ((o.next s t q).pc u).reserves = (s.pc u).reserves := by
    intro u
    by_cases hu : u = t
    · rw [hu, next_pc_self, hq]
    · rw [next_pc_ne hu]
  simp only [St.Reserved, hsame]

/-- After `iget` no mark is left on the inode. -/
theorem not_reserved_next (hq : q.reserves = none) (h : ∀ u, u ≠ t → (s.pc u).reserves ≠ some k) :
    ¬(o.next s t q).Reserved k := by
  rintro ⟨u, hu⟩
  rcases reserves_next hu with ⟨hu, hne⟩ | ⟨_, hq'⟩
  · exact h u hne hu
  · rw [hq] at hq'
    cases hq'

/-- The marks on other inodes stay when a thread gives up its own. -/
theorem reserved_next_ne {k' : Key} (hq : q.reserves = none)
    (hk : ∀ j, (s.pc t).reserves = some j → j = k)
    (hne : k' ≠ k) : (o.next s t q).Reserved k' ↔ s.Reserved k' := by
  constructor
  · rintro ⟨u, hu⟩
    rcases reserves_next hu with ⟨hu, _⟩ | ⟨_, hq'⟩
    · exact ⟨u, hu⟩
    · rw [hq] at hq'
      cases hq'
  · rintro ⟨u, hu⟩
    have hut : u ≠ t := by
      rintro rfl
      exact hne (hk k' hu)
    exact ⟨u, by rw [next_pc_ne hut]; exact hu⟩

omit [DecidableEq T] in
/-- A caller of `iget` has marked the inode that it asks for, or none. -/
theorem gets_reserves {p : Pc n} {j : Key} (hp : s.pc t = p) (hc : p = .free ∨ p = .allocGot k)
    (hj : (s.pc t).reserves = some j) : j = k := by
  rw [hp] at hj
  rcases hc with rfl | rfl
  · cases hj
  · exact (some.inj hj).symm

/-- A thread keeps its mark, and the entry its inode. -/
theorem alive_same {pc : Pc n} (hk : ∀ e k, o ≠ .recycle e k) (hpc : s.pc t = pc)
    (hr : q.reserves = pc.reserves)
    (ha : ((o.next s t q).view x).Alive (s.Reserved (s.inode x).key)) :
    ((o.next s t q).view x).Alive ((o.next s t q).Reserved ((o.next s t q).inode x).key) := by
  rw [(next_entry hk).1, reserved_next (hr.trans (congrArg Pc.reserves hpc).symm)]
  exact ha

variable [Fintype T]

omit [DecidableEq T] in
/-- The copy of an inode that is about to be freed is the inode on disk. -/
theorem Table.copy_of_freeing (h : Table s) (hp : s.panicked = none)
    (he : freeing ((s.view e).role t) = true) :
    (s.inode e).d = s.disk (s.inode e).key ∧ (s.disk (s.inode e).key).type ≠ .free := by
  have hok := h.ok e
  have hl := hok.inside t (holds_of_freeing he)
  have hpos := hok.ref_pos (View.own_pos (View.putting_of_freeing he))
  have hv := hok.freeing t he
  have hfresh : (s.view e).Fresh := hok.fresh hl fun hr => by
    rw [hr] at he
    cases he
  have hclean : (s.view e).dirty = false := by
    cases hd : (s.view e).dirty with
    | false => rfl
    | true =>
      obtain ⟨u, hu, hn⟩ := hok.clean hd
      rw [hl] at hu
      cases hu
      rw [holds_of_freeing he] at hn
      cases hn
  exact ⟨hok.agree hpos hv hclean hfresh, (hok.types (by simp [St.view, hp]) hpos hv hfresh).2⟩

section

variable (h : Lives s) (ht : Table s)

include h ht

/-- An operation on another entry. -/
theorem Lives.other (hx : o.entry ≠ some x) (hq : q.role x = (s.pc t).role x)
    (hd : (o.apply s t).disk (s.inode x).key = s.disk (s.inode x).key ∨ (s.inode x).ref = 0)
    (hres : ((o.next s t q).Reserved (s.inode x).key ↔ s.Reserved (s.inode x).key) ∨
      (s.inode x).ref = 0) :
    ((o.next s t q).view x).Alive ((o.next s t q).Reserved ((o.next s t q).inode x).key) := by
  have hv := view_frame hx hq
  have hin : (o.next s t q).inode x = s.inode x := congrArg View.x hv
  rw [hin, hv]
  by_cases hz : (s.inode x).ref = 0
  · obtain ⟨hcnt, hput⟩ := (ht.ok x).idle hz
    exact .of_not_putting (fun u hu => absurd (hcnt u) hu.ne') hput
  · rw [hd.resolve_right hz, propext (hres.resolve_right hz)]
    exact (h.alive x).quiet rfl rfl rfl (fun _ => rfl) (fun _ => rfl) fun _ _ => rfl

omit [DecidableEq T] in
/-- The inode of an `iget` is allocated, nobody frees it, and no other `ialloc` has marked it. -/
theorem Lives.iget_ok (hp : s.panicked = none)
    (hc : Linked (s.disk k) ∨ (s.pc t).reserves = some k) : (s.disk k).type ≠ .free ∧
      (∀ e, (s.inode e).key = k → ∀ u, freeing ((s.view e).role u) = false) ∧
      ∀ u, u ≠ t → (s.pc u).reserves ≠ some k := by
  rcases hc with hl | hr
  · refine ⟨hl.1, fun e he u => ?_, fun u _ hu => hl.2 (h.fresh k ⟨u, hu⟩).2⟩
    cases hf : freeing ((s.view e).role u) with
    | false => rfl
    | true =>
      have hcopy := (ht.copy_of_freeing hp hf).1
      have hzero := ((h.alive e).alone u hf).2.1
      have hzero : (s.inode e).d.nlink = 0 := hzero
      rw [hcopy, he] at hzero
      exact absurd hzero hl.2
  · refine ⟨(h.fresh k ⟨t, hr⟩).1, fun e he u => ?_, fun u hne hu => hne (h.one u t k hu hr)⟩
    cases hf : freeing ((s.view e).role u) with
    | false => rfl
    | true => exact absurd ⟨t, he ▸ hr⟩ ((h.alive e).alone u hf).2.2

/-- The entries that the step is not about. -/
theorem Lives.other_next (hp : s.panicked = none) (he : Edge s t (s.pc t) o q)
    (hx : o.about q ≠ some x) :
    ((o.next s t q).view x).Alive ((o.next s t q).Reserved ((o.next s t q).inode x).key) := by
  have hin := Op.entry_ne hx
  have hq := he.role_eq hx
  have hd : (∀ k type, o ≠ .allocate k type) →
      (o.apply s t).disk (s.inode x).key = s.disk (s.inode x).key ∨ (s.inode x).ref = 0 := fun ha =>
    (ht.disk_other he hx).imp_right fun hd => hd.resolve_right fun ⟨_, k, type, ho⟩ => ha k type ho
  generalize hpc : s.pc t = pc at he
  cases he with
  | allocate dev type inum hfree =>
    have hmark : ((Op.allocate (dev, inum) type).next s t (.allocGot (dev, inum))).Reserved
        (dev, inum) :=
      ⟨t, by rw [next_pc_self]; rfl⟩
    by_cases hk : (s.inode x).key = (dev, inum)
    · -- the inode was free: nobody had a reference, and nobody was about to free it
      have hon : (s.view x).on.type = .free := by
        unfold St.view
        rw [hk]
        exact hfree
      rw [view_frame hin hq]
      refine ⟨fun u hu => ?_, fun u hu => ?_, fun u _ => .inr (.inl (hk ▸ hmark))⟩
      · exact absurd hon ((h.alive x).used u hu).1
      · exact absurd hon (ht.copy_of_freeing hp hu).2
    · refine h.other ht hin hq (.inl (update_of_ne hk ..)) (.inl ?_)
      constructor
      · rintro ⟨u, hu⟩
        rcases reserves_next hu with ⟨hu, _⟩ | ⟨_, hu⟩
        · exact ⟨u, hu⟩
        · exact absurd (some.inj hu).symm hk
      · rintro ⟨u, hu⟩
        have hut : u ≠ t := by
          rintro rfl
          rw [hpc] at hu
          cases hu
        exact ⟨u, by rw [next_pc_ne hut]; exact hu⟩
  | @iget _ k e hc hlook =>
    obtain ⟨hpos, hkey⟩ := lookup_some hlook
    refine h.other ht hin hq (.inl rfl) (or_iff_not_imp_right.mpr fun hz => ?_)
    refine reserved_next_ne rfl (fun j hj => gets_reserves hpc hc hj) fun hk => hin ?_
    exact congrArg some (ht.uniq e x hpos (Nat.pos_of_ne_zero hz) (hkey.trans hk.symm))
  | recycle hc hlook _ =>
    refine h.other ht hin hq (.inl rfl) (or_iff_not_imp_right.mpr fun hz => ?_)
    exact reserved_next_ne rfl (fun j hj => gets_reserves hpc hc hj)
      (lookup_none hlook (Nat.pos_of_ne_zero hz))
  | _ =>
    exact h.other ht hin hq (hd (by nofun)) (.inl (reserved_next (congrArg Pc.reserves hpc).symm))

theorem Lives.alive_next (hp : s.panicked = none)
    (he : Edge s t (s.pc t) o q) (hen : o.Enabled s) (hm : o.Meets s t (s.pc t)) (x : Fin n) :
    ((o.next s t q).view x).Alive ((o.next s t q).Reserved ((o.next s t q).inode x).key) := by
  by_cases hx : o.about q = some x
  swap
  · exact h.other_next ht hp he hx
  -- the entry that the step is about
  generalize hpc : s.pc t = pc at he hm
  have hrole : (s.view x).role t = pc.role x := congrArg (Pc.role x) hpc
  have hok := ht.ok x
  have hal := h.alive x
  cases he with
  | ialloc | look | full | allocate | panic => cases hx
  | @iget _ k e hc hlook =>
    cases hx
    obtain ⟨hpos, hkey⟩ := lookup_some hlook
    have hthree : (s.disk k).type ≠ .free ∧ (∀ u, freeing ((s.view x).role u) = false) ∧
        ∀ u, u ≠ t → (s.pc u).reserves ≠ some k := by
      by_cases hmem : x ∈ s.refs t
      · obtain ⟨h1, h2, h3⟩ := hal.used t (List.count_pos_iff.mpr hmem)
        refine ⟨?_, h2, fun u _ hu => h3 ⟨u, by rw [hkey]; exact hu⟩⟩
        rw [← hkey]
        exact h1
      · have hl : Linked (s.disk k) ∨ (s.pc t).reserves = some k := by
          rcases hc with hfree | hgot
          · rw [← hkey]
            exact .inl (hm hfree hmem)
          · exact .inr (by rw [hpc, hgot]; rfl)
        obtain ⟨h1, h2, h3⟩ := h.iget_ok ht hp hl
        exact ⟨h1, h2 x hkey, h3⟩
    obtain ⟨h1, h2, h3⟩ := hthree
    rw [view_share, update_role (gets_role hpc hc x), (next_entry (o := .share x) (by simp)).1,
      hkey]
    refine .taken (t := t) (by simp) ?_ h2 (not_reserved_next rfl h3)
    change (s.disk (s.inode x).key).type ≠ .free
    rw [hkey]
    exact h1
  | @recycle _ k e hc hlook hempty =>
    cases hx
    have hl : Linked (s.disk k) ∨ (s.pc t).reserves = some k := by
      rcases hc with hfree | hgot
      · exact .inl (hm hfree)
      · exact .inr (by rw [hpc, hgot]; rfl)
    obtain ⟨h1, h2, h3⟩ := h.iget_ok ht hp hl
    have hself : (((Op.recycle x k).next s t .free).inode x).key = k :=
      congrArg Inode.key (update_self x _ s.inode)
    rw [view_recycle, update_role (gets_role hpc hc x), hself]
    have hidle := (hok.idle (empty_some hempty)).2
    exact .taken (t := t) (by simp) h1 (fun u => View.not_freeing (hidle u))
      (not_reserved_next rfl h3)
  | idup e hmem =>
    cases hx
    obtain ⟨h1, h2, h3⟩ := hal.used t (List.count_pos_iff.mpr hmem)
    refine alive_same (by simp) hpc rfl ?_
    rw [view_share, update_role (by rw [hpc])]
    exact .taken (t := t) (by simp) h1 h2 h3
  | ilock e hmem =>
    cases hx
    refine alive_same (by simp) hpc rfl ?_
    rw [view_skip, role_call]
    exact hal.moves rfl (by rw [hrole]; rfl) (by rw [hrole]; rfl) rfl rfl rfl fun _ _ => rfl
  | acquiresleep e =>
    cases hx
    have hr := hrole.trans (role_call ..)
    refine alive_same (by simp) hpc rfl ?_
    rw [view_acquiresleep, role_call]
    exact hal.moves rfl (by rw [hr]; rfl) (by rw [hr]; rfl) rfl rfl rfl fun _ _ => rfl
  | fill e =>
    cases hx
    have hr := hrole.trans (role_call ..)
    have hnot := hok.not_freeing (hok.inside t (by rw [hr]; rfl)) (by rw [hr]; rfl)
    refine alive_same (by simp) hpc rfl ?_
    cases hv : (s.inode x).valid with
    | true =>
      rw [view_keep hv, role_free]
      exact hal.moves rfl (by rw [hr]; rfl) (by rw [hr]; rfl) rfl rfl rfl fun _ _ => rfl
    | false =>
      rw [view_fill hv, role_free]
      exact hal.moves rfl (by rw [hr]; rfl) (by rw [hr]; rfl) rfl rfl rfl fun u hu =>
        absurd hu (by simp [hnot u])
  | modify e d hl hd =>
    cases hx
    have hnot := hok.not_freeing hl (by rw [hrole]; rfl)
    refine alive_same (by simp) hpc rfl ?_
    rw [view_modify, update_role (by rw [hpc])]
    exact hal.quiet rfl rfl rfl (fun _ => rfl) (fun _ => rfl) fun u hu =>
      absurd hu (by simp [hnot u])
  | iupdate e hl =>
    cases hx
    have hpos := hok.ref_pos (hok.own_of_lock hl)
    have hcnt := hok.cnt_of_lock hl hrole
    have hv := hok.filled t hl (by rw [hrole]; rfl)
    have hfresh := hok.fresh hl (by simp [hrole, role_free])
    obtain ⟨h1, h2, h3⟩ := hal.used t hcnt
    refine alive_same (by simp) hpc rfl ?_
    rw [view_iupdate, update_role (by rw [hpc])]
    exact .taken hcnt (hok.types (by simp [St.view, hp]) hpos hv hfresh).1 h2 h3
  | iunlock e hl hd =>
    cases hx
    refine alive_same (by simp) hpc rfl ?_
    rw [view_releasesleep, update_role (by rw [hpc])]
    exact hal.quiet rfl rfl rfl (fun _ => rfl) (fun _ => rfl) fun _ _ => rfl
  | give e u hs =>
    cases hx
    obtain ⟨h1, h2, h3⟩ := hal.used t (Nat.zero_lt_of_lt hs)
    refine alive_same (by simp) hpc rfl ?_
    rw [view_give, update_role (by rw [hpc])]
    exact .taken (t := u) (by simp) h1 h2 h3
  | drop e hs hn =>
    cases hx
    obtain ⟨h1, h2, h3⟩ := hal.used t (Nat.zero_lt_of_lt hs)
    refine alive_same (by simp) hpc rfl ?_
    rw [view_drop, update_role (by rw [hpc])]
    exact .of_not_putting (fun _ _ => ⟨h1, h3⟩) hm.2
  | claim e hs hr hv hl =>
    cases hx
    obtain ⟨-, -, h3⟩ := hal.used t (Nat.zero_lt_of_lt hs)
    refine alive_same (by simp) hpc rfl ?_
    rw [view_claim, role_call]
    exact .claim hok (Nat.zero_lt_of_lt hs) hr hl h3 hm
  | itrunc e =>
    cases hx
    refine alive_same (by simp) hpc rfl ?_
    rw [view_iupdate, role_call]
    exact hal.free hok (by rw [hrole.trans (role_call ..)]; rfl) (fun _ => rfl) (by rintro ⟨⟩)
  | clear e =>
    cases hx
    refine alive_same (by simp) hpc rfl ?_
    rw [view_iupdate, role_call]
    exact hal.free hok (by rw [hrole.trans (role_call ..)]; rfl) (by rintro ⟨⟩) fun _ => rfl
  | invalidate e =>
    cases hx
    have hr := hrole.trans (role_call ..)
    refine alive_same (by simp) hpc rfl ?_
    rw [view_invalidate, role_call]
    exact hal.moves rfl (by rw [hr]; rfl) (by rw [hr]; rfl) rfl rfl rfl fun _ _ => rfl
  | unlock e =>
    cases hx
    have hr := hrole.trans (role_call ..)
    refine alive_same (by simp) hpc rfl ?_
    rw [view_releasesleep, role_call]
    exact hal.moves rfl (by rw [hr]; rfl) (by rw [hr]; rfl) rfl rfl rfl fun _ _ => rfl
  | unref e =>
    cases hx
    refine alive_same (by simp) hpc rfl ?_
    rw [view_unref, role_free]
    exact hal.unref hok (hrole.trans (role_call ..))

end

omit [Fintype T] in
/-- A mark is set by `ialloc`, on a free inode. -/
theorem Edge.reserves {pc : Pc n} (he : Edge s t pc o q) (hq : q.reserves = some k) :
    pc.reserves = some k ∨ (s.disk k).type = .free ∧ ∃ type, o = .allocate k type ∧
    pc.kind = some type := by
  cases he with
  | allocate dev type inum hfree =>
    cases hq
    exact .inr ⟨hfree, type, rfl, rfl⟩
  | panic => exact .inl hq
  | _ => cases hq

omit [Fintype T] in
theorem Edge.kind {pc : Pc n} (he : Edge s t pc o q) (h : pc.kind ≠ some .free) :
    q.kind ≠ some .free := by
  cases he with
  | ialloc dev type htype => exact fun hq => htype (some.inj hq)
  | look | panic => exact h
  | _ => exact nofun

/-- Nobody writes to an inode that `ialloc` has marked. -/
theorem Lives.disk_next (h : Lives s) (ht : Table s) (he : Edge s t (s.pc t) o q)
    (hk : s.Reserved k) :
    (o.next s t q).disk k = s.disk k := by
  generalize hpc : s.pc t = pc at he
  cases he with
  | allocate dev type inum hfree =>
    refine update_of_ne ?_ ..
    rintro rfl
    exact (h.fresh _ hk).1 hfree
  | iupdate e hl =>
    refine update_of_ne ?_ ..
    rintro rfl
    have hc := (ht.ok e).cnt_of_lock hl (congrArg (Pc.role e) hpc)
    exact ((h.alive e).used t hc).2.2 hk
  | itrunc e | clear e =>
    refine update_of_ne ?_ ..
    rintro rfl
    have hr : (s.view e).role t = some _ := (congrArg (Pc.role e) hpc).trans (role_call ..)
    exact ((h.alive e).alone t (by rw [hr]; rfl)).2.2 hk
  | fill e => cases hv : (s.inode e).valid <;> simp [Op.next, Op.apply, hv, St.setInode]
  | _ => rfl

theorem Lives.next (h : Lives s) (ht : Table s) (hp : s.panicked = none)
    (he : Edge s t (s.pc t) o q)
    (hen : o.Enabled s) (hm : o.Meets s t (s.pc t)) : Lives (o.next s t q) where
  kinds := h.kinds_next (he.kind (h.kinds t))
  fresh := fun k ⟨u, hu⟩ => by
    have hold : s.Reserved k ∨
        (s.disk k).type = .free ∧ ∃ type, o = .allocate k type ∧ (s.pc t).kind = some type := by
      rcases reserves_next hu with ⟨hu, _⟩ | ⟨_, hq⟩
      · exact .inl ⟨u, hu⟩
      · exact (he.reserves hq).imp_left fun hq => ⟨t, hq⟩
    rcases hold with hk | ⟨_, type, rfl, htype⟩
    · rw [h.disk_next ht he hk]
      exact h.fresh k hk
    · have hself : ((Op.allocate k type).next s t q).disk k = .fresh type := update_self ..
      rw [hself]
      exact ⟨fun hf => h.kinds t (htype.trans (congrArg some hf)), rfl⟩
  one := fun u v k hu hv => by
    -- an inode that is marked is not free, so it is not marked again
    have hold : ∀ w, ((o.next s t q).pc w).reserves = some k → (s.pc w).reserves = some k ∨
        w = t ∧ (s.disk k).type = .free := by
      intro w hw
      rcases reserves_next hw with ⟨hw, _⟩ | ⟨rfl, hq⟩
      · exact .inl hw
      · exact (he.reserves hq).imp_right fun hq => ⟨rfl, hq.1⟩
    rcases hold u hu with hu' | ⟨rfl, hu'⟩ <;> rcases hold v hv with hv' | ⟨rfl, hv'⟩
    · exact h.one u v k hu' hv'
    · exact absurd hv' (h.fresh k ⟨u, hu'⟩).1
    · exact absurd hu' (h.fresh k ⟨v, hv'⟩).1
    · rfl
  alive := h.alive_next ht hp he hen hm

omit [Fintype T] in
/-- A count goes down in `iput` only. -/
theorem next_ref_lt (hk : ∀ y k, o = .recycle y k → (s.inode y).ref = 0)
    (h : ((o.next s t q).inode x).ref < (s.inode x).ref) : o = .drop x ∨ o = .unref x := by
  cases o with
  | skip | allocate | panic | give => exact absurd h (lt_irrefl _)
  | recycle e k =>
    by_cases hx : x = e
    · rw [hx, hk e k rfl] at h
      exact absurd h (Nat.not_lt_zero _)
    · simp [Op.next, Op.apply, St.setInode, St.setRefs, update_of_ne hx] at h
  | fill e =>
    cases hv : (s.inode e).valid <;> by_cases hx : x = e <;>
      simp [Op.next, Op.apply, hv, St.setInode, hx, update_of_ne] at h
  | share e | acquiresleep e | modify e | iupdate e | releasesleep e | drop e | claim e
  | invalidate e
  | unref e =>
    by_cases hx : x = e
    · simp [Op.next, Op.apply, St.setInode, St.setRefs, hx] at h ⊢
    · simp [Op.next, Op.apply, St.setInode, St.setRefs, update_of_ne hx] at h

/-- The last reference to an inode goes: the inode has a link, or it is free, or it was free and an
`ialloc` has marked it since. -/
theorem Lives.last (h : Lives s) (ht : Table s) (he : Edge s t (s.pc t) o q)
    (hm : o.Meets s t (s.pc t)) (h1 : (s.inode e).ref = 1) (h0 : ((o.next s t q).inode e).ref = 0) :
    ((o.next s t q).disk (s.inode e).key).type = .free ∨
      ((o.next s t q).disk (s.inode e).key).nlink ≠ 0 ∨ (o.next s t q).Reserved
        (s.inode e).key := by
  have hok := ht.ok e
  have hlt : ((o.next s t q).inode e).ref < (s.inode e).ref := by omega
  have hrec : ∀ y k, o = .recycle y k → (s.inode y).ref = 0 := by
    rintro y k rfl
    generalize s.pc t = pc at he
    cases he with
    | recycle _ _ hempty => exact empty_some hempty
  generalize hpc : s.pc t = pc at he hm
  rcases next_ref_lt hrec hlt with rfl | rfl
  · cases he with
    | drop _ hs hn =>
      refine .inr (.inl ?_)
      change (s.disk (s.inode e).key).nlink ≠ 0
      cases hv : (s.inode e).valid with
      | false => exact hm.1 h1 hv
      | true =>
        have hlock : (s.inode e).lock = none := by
          cases hl : (s.inode e).lock with
          | none => rfl
          | some u =>
            -- the holder of the lock has a reference besides the one that goes
            exfalso
            have hs : (if (s.inode e).lock = some t then 1 else 0) < (s.view e).cnt t := hs
            have hpos : 0 < (s.view e).cnt t := Nat.zero_lt_of_lt hs
            by_cases hut : u = t
            · rw [hl, hut, if_pos rfl] at hs
              have hle : (s.view e).cnt t ≤ (s.inode e).ref := hok.cnt_le t
              omega
            · have hle : 2 ≤ (s.inode e).ref :=
                hok.two_le (hok.own_of_lock hl) (Nat.add_pos_left hpos _) hut
              omega
        rw [← ht.sound.agree e (by omega) hv hlock]
        exact fun hl => hn ⟨h1, hv, hl⟩
  · cases he with
    | unref _ =>
      have hr : (s.view e).role t = some .putLast := (congrArg (Pc.role e) hpc).trans (role_call ..)
      have hput : putting ((s.view e).role t) = true := by rw [hr]; rfl
      rcases (h.alive e).window t (by rw [hr]; rfl) with hw | hw | ⟨u, hu⟩
      · exact .inl hw
      · exact .inr (.inr ((reserved_next (by rw [hpc]; rfl)).mpr hw))
      · exfalso
        by_cases hut : u = t
        · have hle : (s.view e).own t ≤ (s.inode e).ref := hok.own_le t
          rw [hut] at hu
          unfold View.own at hle
          rw [if_pos hput] at hle
          omega
        · have hle : 2 ≤ (s.inode e).ref :=
            hok.two_le (Nat.add_pos_left hu _) (View.own_pos hput) hut
          omega

/-! ## Runs -/

theorem lives_of_run {ninodes : ℕ} {d : Key → Dinode} {tr : List (T × Choice T n)}
    (h : Run (Where Orderly (Fires (step ninodes))) (boot T n d) tr s) : Table s ∧ Lives s := by
  refine h.inv_state (I := fun s => Table s ∧ Lives s) ⟨boot_table d, boot_lives d⟩ ?_
  rintro s i s' ⟨ht, hs⟩ ⟨ho, hstep⟩
  obtain ⟨o, q, hp, he, hen, rfl⟩ := step_cases hstep
  exact ⟨ht.next hp (.of_edge he) hen, hs.next ht hp (.of_edge he) hen (meets_of_edge ho he)⟩

/-- In every run the entries in use are for different inodes, the counts are the numbers of
references, and a copy that is not locked is the inode on disk. In every orderly run an `iput` that
frees an inode has the last reference to an inode without links, and where the last reference goes
the inode has a link, or it is free, or it was free and `ialloc` has marked it since. -/
theorem iput_frees_last (ninodes : ℕ) (d : Key → Dinode) :
    (∀ tr s, Run (Fires (step ninodes)) (boot T n d) tr s → Sound s) ∧
    ∀ tr s, Run (Where Orderly (Fires (step ninodes))) (boot T n d) tr s →
      (∀ t e, s.pc t = .call .putTrunc e → (s.inode e).ref = 1 ∧ (s.inode e).d.nlink = 0) ∧
      ∀ i s', Orderly s i → step ninodes s i = some s' → ∀ e, (s.inode e).ref = 1 →
      (s'.inode e).ref = 0 →
          (s'.disk (s.inode e).key).type = .free ∨ (s'.disk (s.inode e).key).nlink ≠ 0 ∨
            ∃ u, s'.pc u = .allocGot (s.inode e).key := by
  refine ⟨fun tr s hrun => (table_of_run hrun).sound, fun tr s hrun => ?_⟩
  obtain ⟨ht, hs⟩ := lives_of_run hrun
  refine ⟨fun t e hpc => ?_, fun i s' ho hstep e h1 h0 => ?_⟩
  · have hr : (s.view e).role t = some .putTrunc := (congrArg (Pc.role e) hpc).trans (role_call ..)
    obtain ⟨href, hl, -⟩ := (hs.alive e).alone t (by rw [hr]; rfl)
    exact ⟨href, hl⟩
  · obtain ⟨o, q, hp, he, hen, rfl⟩ := step_cases hstep
    refine (hs.last ht (.of_edge he) (meets_of_edge ho he) h1 h0).imp_right (Or.imp_right ?_)
    rintro ⟨u, hu⟩
    refine ⟨u, ?_⟩
    cases hpc : ((o.next s i.1 q).pc u) with
    | allocGot k =>
      rw [hpc] at hu
      exact congrArg Pc.allocGot (some.inj hu)
    | free | alloc | call =>
      rw [hpc] at hu
      cases hu

end

/-! ## The race -/

instance (d : Dinode) : Decidable (Linked d) := inferInstanceAs (Decidable (_ ∧ _))

instance (s : St T n) (i : T × Choice T n) : Decidable (Careful s i) :=
  match i with
  | (_, .iget k) => inferInstanceAs (Decidable (Linked (s.disk k)))
  | (_, .iput _) => inferInstanceAs (Decidable (_ → _ → _))
  | (_, .go) | (_, .ialloc ..) | (_, .idup _) | (_, .ilock _) | (_, .modify ..) | (_, .iupdate _)
  | (_, .iunlock _) | (_, .give ..) => inferInstanceAs (Decidable True)

instance [Fintype T] (s : St T n) (i : T × Choice T n) : Decidable (Apart s i) :=
  match i with
  | (_, .iput _) => inferInstanceAs (Decidable (∀ _, _))
  | (_, .iget _) | (_, .go) | (_, .ialloc ..) | (_, .idup _) | (_, .ilock _) | (_, .modify ..)
  | (_, .iupdate _) | (_, .iunlock _) | (_, .give ..) => inferInstanceAs (Decidable True)

instance [Fintype T] (s : St T n) (i : T × Choice T n) : Decidable (Orderly s i) :=
  inferInstanceAs (Decidable (_ ∧ _))

/-- A disk with one file, which has one link. -/
def oneFile : Key → Dinode :=
  fun k => if k = (1, 1) then { Dinode.fresh .file with nlink := 1 } else .fresh .free

/-- Thread `false` removes the file and drops it, up to the last `ip->ref--`. -/
def unlinked : List (Bool × Choice Bool 1) :=
  [.iget (1, 1), .ilock 0, .go, .go, .modify 0 (.fresh .file), .iupdate 0, .iunlock 0, .iput 0].map
    (false, ·)

def emptied : List (Bool × Choice Bool 1) := List.replicate 4 (false, .go)

/-- Thread `true` gets the number for a file, writes block 40 to it and drops it without a link. -/
def reused : List (Bool × Choice Bool 1) :=
  [.ialloc 1 .file, .go, .go, .ilock 0, .go, .go,
    .modify 0 { Dinode.fresh .file with size := 1024, addrs := fun i => if i = 0 then 40 else 0 },
    .iupdate 0, .iunlock 0, .iput 0].map (true, ·)

/-- In the first state that frees the inode, `iput` has its last reference. -/
theorem iput_frees_last_unlinked : ∃ s : St Bool 1,
    Run (Where Orderly (Fires (step 2))) (boot Bool 1 oneFile) unlinked s ∧
      s.pc false = .call .putTrunc 0 ∧ (s.inode 0).ref = 1 ∧ (s.inode 0).d.nlink = 0 := by
  obtain ⟨s, hs, hpc⟩ := exec_any (guarded Orderly (step 2)) (boot Bool 1 oneFile) unlinked
    (fun s => decide (s.pc false = .call .putTrunc 0)) (by decide +kernel)
  have hrun := run_where_of_exec hs
  have hpc := of_decide_eq_true hpc
  exact ⟨s, hrun, hpc, ((iput_frees_last 2 oneFile).2 unlinked s hrun).1 false 0 hpc⟩

/-- An `iput` that starts while another one is freeing the inode: in the end nobody has a reference
to the inode, which has no link, and its block is not free. -/
theorem put_leaks_inode : ∃ s : St Bool 1,
    Run (Where Careful (Fires (step 2))) (boot Bool 1 oneFile)
      (unlinked ++ emptied ++ reused ++ [(false, .go)]) s ∧
      (∀ t, s.pc t = .free) ∧ (∀ t, s.refs t = []) ∧ (s.inode 0).ref = 0 ∧
      (s.disk (1, 1)).type = .file ∧ (s.disk (1, 1)).nlink = 0 ∧ (s.disk (1, 1)).addrs 0 = 40 := by
  obtain ⟨s, hs, h⟩ := exec_any (guarded Careful (step 2)) (boot Bool 1 oneFile)
    (unlinked ++ emptied ++ reused ++ [(false, .go)])
    (fun s => decide ((∀ t, s.pc t = .free) ∧ (∀ t, s.refs t = []) ∧ (s.inode 0).ref = 0 ∧
      (s.disk (1, 1)).type = .file ∧ (s.disk (1, 1)).nlink = 0 ∧ (s.disk (1, 1)).addrs 0 = 40))
    (by decide +kernel)
  exact ⟨s, run_where_of_exec hs, of_decide_eq_true h⟩

end Xv6.Itable
