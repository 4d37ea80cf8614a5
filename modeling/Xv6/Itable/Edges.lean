/-
  The steps of the inode table.

  `Edge` lists the steps of `edge` with the tests that lead to them.
-/
import Xv6.Lib.Run
import Xv6.Itable.Model

namespace Xv6.Itable

open Lib
open Fs (IType Dinode)

variable {T : Type} {n : ℕ}

/-! ## Steps -/

section

variable [DecidableEq T]

inductive Edge (s : St T n) (t : T) : Pc n → Op T n → Pc n → Prop
  | ialloc (dev : ℕ) (type : IType) (h : type ≠ .free) : Edge s t .free .skip (.alloc dev type 1)
  | look (dev : ℕ) (type : IType) (inum : ℕ) :
      Edge s t (.alloc dev type inum) .skip (.alloc dev type (inum + 1))
  | full (dev : ℕ) (type : IType) (inum : ℕ) : Edge s t (.alloc dev type inum) .skip .free
  | allocate (dev : ℕ) (type : IType) (inum : ℕ) (h : (s.disk (dev, inum)).type = .free) :
      Edge s t (.alloc dev type inum) (.allocate (dev, inum) type) (.allocGot (dev, inum))
  | iget {pc : Pc n} {k : Key} {e : Fin n} (hc : pc = .free ∨ pc = .allocGot k)
      (h : s.lookup k = some e) : Edge s t pc (.share e) .free
  | recycle {pc : Pc n} {k : Key} {e : Fin n} (hc : pc = .free ∨ pc = .allocGot k)
      (h : s.lookup k = none) (h0 : s.empty = some e) : Edge s t pc (.recycle e k) .free
  | idup (e : Fin n) (h : e ∈ s.refs t) : Edge s t .free (.share e) .free
  | ilock (e : Fin n) (h : e ∈ s.refs t) : Edge s t .free .skip (.call .lockWait e)
  | acquiresleep (e : Fin n) : Edge s t (.call .lockWait e) (.acquiresleep e) (.call .lockFill e)
  | fill (e : Fin n) : Edge s t (.call .lockFill e) (.fill e) .free
  | modify (e : Fin n) (d : Dinode) (h : (s.inode e).lock = some t)
      (hd : d.type = (s.inode e).d.type) : Edge s t .free (.modify e d) .free
  | iupdate (e : Fin n) (h : (s.inode e).lock = some t) :
      Edge s t .free (.iupdate e (s.inode e).d) .free
  | iunlock (e : Fin n) (h : (s.inode e).lock = some t) (hd : s.dirty e = false) :
      Edge s t .free (.releasesleep e) .free
  | give (e : Fin n) (u : T) (h : s.Spare t e) : Edge s t .free (.give e u) .free
  | drop (e : Fin n) (h : s.Spare t e)
      (hn : ¬((s.inode e).ref = 1 ∧ (s.inode e).valid = true ∧ (s.inode e).d.nlink = 0)) :
      Edge s t .free (.drop e) .free
  | claim (e : Fin n) (h : s.Spare t e) (hr : (s.inode e).ref = 1) (hv : (s.inode e).valid = true)
      (hl : (s.inode e).d.nlink = 0) : Edge s t .free (.claim e) (.call .putTrunc e)
  | itrunc (e : Fin n) :
      Edge s t (.call .putTrunc e)
        (.iupdate e { (s.inode e).d with size := 0, addrs := fun _ => 0 })
        (.call .putType e)
  | clear (e : Fin n) :
      Edge s t (.call .putType e) (.iupdate e { (s.inode e).d with type := .free })
        (.call .putInvalid e)
  | invalidate (e : Fin n) : Edge s t (.call .putInvalid e) (.invalidate e) (.call .putUnlock e)
  | unlock (e : Fin n) : Edge s t (.call .putUnlock e) (.releasesleep e) (.call .putLast e)
  | unref (e : Fin n) : Edge s t (.call .putLast e) (.unref e) .free
  | panic (pc : Pc n) (p : Panic) : Edge s t pc (.panic p) pc

namespace Edge

variable {ninodes : ℕ} {s : St T n} {t : T} {pc q : Pc n} {o : Op T n} {k : Key}

theorem of_iget (hc : pc = .free ∨ pc = .allocGot k) (h : Itable.iget s k pc = (o, q)) :
    Edge s t pc o q := by
  unfold Itable.iget at h
  split at h
  · cases h
    exact .iget hc (by assumption)
  · split at h
    · cases h
      exact .recycle hc (by assumption) (by assumption)
    · cases h
      exact .panic _ _

theorem of_ialloc {dev inum : ℕ} {type : IType}
    (h : Itable.ialloc ninodes s dev type inum = (o, q)) :
    Edge s t (.alloc dev type inum) o q := by
  unfold Itable.ialloc at h
  split at h
  · split at h
    · cases h
      exact .allocate _ _ _ (by assumption)
    · cases h
      exact .look _ _ _
  · cases h
    exact .full _ _ _

/-- A call that starts between calls. -/
theorem of_call {c : Choice T n} (h : edge ninodes s t .free c = some (o, q)) :
    Edge s t .free o q := by
  cases c with
  | go => cases h
  | ialloc dev type =>
    obtain ⟨htype, h⟩ := Option.ite_none_left_eq_some.mp h
    cases h
    exact .ialloc dev type htype
  | iget k => exact of_iget (.inl rfl) (Option.some.inj h)
  | idup e =>
    obtain ⟨he, h⟩ := Option.ite_none_right_eq_some.mp h
    cases h
    exact .idup e he
  | ilock e =>
    obtain ⟨he, h⟩ := Option.ite_none_right_eq_some.mp h
    unfold Itable.ilock at h
    split at h
    · cases h
      exact .panic _ _
    · cases h
      exact .ilock e he
  | modify e d =>
    obtain ⟨hd, h⟩ := Option.ite_none_right_eq_some.mp h
    cases h
    exact .modify e d hd.1 hd.2
  | iupdate e =>
    obtain ⟨hl, h⟩ := Option.ite_none_right_eq_some.mp h
    cases h
    exact .iupdate e hl
  | iunlock e =>
    obtain ⟨hd, h⟩ := Option.ite_none_right_eq_some.mp h
    unfold Itable.iunlock at h
    split at h
    · cases h
      exact .panic _ _
    · rename_i hl
      cases h
      exact .iunlock e (not_not.mp (not_or.mp hl).1) hd.2
  | iput e =>
    obtain ⟨hs, h⟩ := Option.ite_none_right_eq_some.mp h
    unfold Itable.iput at h
    split at h
    · rename_i hf
      cases h
      exact .claim e hs hf.1 hf.2.1 hf.2.2
    · cases h
      exact .drop e hs (by assumption)
  | give e u =>
    obtain ⟨hs, h⟩ := Option.ite_none_right_eq_some.mp h
    cases h
    exact .give e u hs

theorem of_edge {c : Choice T n} (h : edge ninodes s t pc c = some (o, q)) : Edge s t pc o q := by
  cases pc with
  | free => exact of_call h
  | alloc dev type inum =>
    cases c with
    | go => exact of_ialloc (Option.some.inj h)
    | _ => cases h
  | allocGot k =>
    cases c with
    | go => exact of_iget (.inr rfl) (Option.some.inj h)
    | _ => cases h
  | call r e =>
    cases c with
    | go =>
      cases r <;> cases h <;> constructor
    | _ => cases r <;> cases h

end Edge

/-- A step is an operation at an edge of the code. -/
theorem step_cases {ninodes : ℕ} {s s' : St T n} {i : T × Choice T n}
    (h : step ninodes s i = some s') : ∃ o q, s.panicked = none ∧
      edge ninodes s i.1 (s.pc i.1) i.2 = some (o, q) ∧ o.Enabled s ∧ s' = o.next s i.1 q := by
  unfold step at h
  obtain ⟨hp, h⟩ := Option.ite_none_left_eq_some.mp h
  split at h
  · rename_i o q he
    obtain ⟨hen, h⟩ := Option.ite_none_right_eq_some.mp h
    exact ⟨o, q, not_not.mp hp, he, hen, (Option.some.inj h).symm⟩
  · cases h

/-! ## The scans of `iget` -/

variable {s : St T n} {k : Key} {e x : Fin n}

omit [DecidableEq T] in
theorem lookup_some (h : s.lookup k = some e) : 0 < (s.inode e).ref ∧ (s.inode e).key = k := by
  simpa using List.find?_some h

omit [DecidableEq T] in
theorem lookup_none (h : s.lookup k = none) (hr : 0 < (s.inode x).ref) : (s.inode x).key ≠ k := by
  have := List.find?_eq_none.mp h x (List.mem_finRange x)
  simpa [hr] using this

omit [DecidableEq T] in
theorem empty_some (h : s.empty = some e) : (s.inode e).ref = 0 := by
  simpa using List.find?_some h

end

end Xv6.Itable
