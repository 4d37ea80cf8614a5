/-
  Lists that a `next` function leads through, and walks along a circular one.
-/
import Mathlib

namespace Xv6.Lib

open List

variable {α β : Type}

/-- `next` leads from each element of the list to the one after it, and from the last one to `z`. -/
def Trail (next : α → α) : List α → α → Prop
  | [], _ => True
  | a :: l, z => next a = l.headD z ∧ Trail next l z

section Trail

variable {next next' : α → α} {l l1 l2 : List α} {a q z : α}

theorem Trail.append : Trail next (l1 ++ l2) z ↔ Trail next l1 (l2.headD z) ∧ Trail next l2 z := by
  induction l1 with
  | nil => exact ⟨fun h => ⟨trivial, h⟩, fun h => h.2⟩
  | cons a l ih =>
    have hhead : (l ++ l2).headD z = l.headD (l2.headD z) := by cases l <;> rfl
    show (next a = (l ++ l2).headD z ∧ Trail next (l ++ l2) z) ↔
      (next a = l.headD (l2.headD z) ∧ Trail next l (l2.headD z)) ∧ Trail next l2 z
    rw [hhead, ih, and_assoc]

theorem Trail.congr (h : Trail next l z) (hn : ∀ a ∈ l, next' a = next a) : Trail next' l z := by
  induction l with
  | nil => trivial
  | cons a l ih =>
    exact ⟨(hn a mem_cons_self).trans h.1, ih h.2 fun b hb => hn b (mem_cons_of_mem a hb)⟩

/-- A circular list can be entered anywhere. -/
theorem Trail.rotate (h : Trail next (a :: l) a) (hq : q ∈ a :: l) :
    ∃ r, Trail next (q :: r) q ∧ (q :: r).Perm (a :: l) := by
  obtain ⟨A, B, hAB⟩ := append_of_mem hq
  cases A with
  | nil =>
    obtain ⟨rfl, rfl⟩ := List.cons.inj hAB
    exact ⟨_, h, .refl _⟩
  | cons a' A =>
    obtain ⟨rfl, rfl⟩ : a = a' ∧ l = A ++ q :: B := List.cons.inj hAB
    rw [← cons_append, Trail.append] at h
    refine ⟨B ++ a :: A, ?_, ?_⟩
    · rw [← cons_append, Trail.append]
      exact ⟨h.2, h.1⟩
    · rw [← cons_append, ← cons_append]
      exact perm_append_comm

/-- The walk from `q` to the first `c` with `P c`, or once round. -/
theorem Trail.search (h : Trail next (a :: l) a) (hn : (a :: l).Nodup) (hq : q ∈ a :: l)
    (P : α → Prop) [DecidablePred P] :
    ∃ m c, Trail next (q :: m) c ∧ (∀ x ∈ m, ¬ P x ∧ x ≠ q) ∧ c ∈ a :: l ∧ (∀ x ∈ m, x ∈ a :: l) ∧
      (P c ∨ c = q ∧ ∀ x ∈ a :: l, x ≠ q → ¬ P x) := by
  obtain ⟨r, hr, hperm⟩ := h.rotate hq
  have hqr : q ∉ r := (List.nodup_cons.mp (hperm.nodup_iff.mpr hn)).1
  have hmem : ∀ x ∈ r, x ∈ a :: l := fun x hx => hperm.mem_iff.mp (mem_cons_of_mem q hx)
  cases hfind : r.find? fun x => decide (P x) with
  | some c =>
    obtain ⟨hc, m, rest, rfl, hm⟩ := List.find?_eq_some_iff_append.mp hfind
    rw [← cons_append, Trail.append] at hr
    refine ⟨m, c, hr.1, fun x hx => ⟨by simpa using hm x hx, ?_⟩, hmem c (by simp),
      fun x hx => hmem x (mem_append_left _ hx), .inl (by simpa using hc)⟩
    rintro rfl
    exact hqr (mem_append_left _ hx)
  | none =>
    have hno : ∀ x ∈ r, ¬ P x := fun x hx => by simpa using List.find?_eq_none.mp hfind x hx
    refine ⟨r, q, hr, fun x hx => ⟨hno x hx, fun hxq => hqr (hxq ▸ hx)⟩, hq, hmem, .inr ⟨rfl, ?_⟩⟩
    intro x hx hxq
    exact hno x ((List.mem_cons.mp (hperm.mem_iff.mpr hx)).resolve_left hxq)

end Trail

/-! ## Programs with fuel -/

/-- With enough fuel the result is `r`. -/
def Returns (f : ℕ → Option β) (r : β) : Prop := ∃ n, ∀ fuel, n ≤ fuel → f fuel = some r

/-- More fuel does not change a result. -/
def FuelMono (f : ℕ → Option β) : Prop := ∀ fuel r, f fuel = some r → f (fuel + 1) = some r

variable {f : ℕ → Option β}

theorem FuelMono.returns (hf : FuelMono f) (fuel : ℕ) {r : β} (h : f fuel = some r) :
    Returns f r := by
  refine ⟨fuel, fun n hn => ?_⟩
  induction hn with
  | refl => exact h
  | step _ ih => exact hf _ r ih

theorem Returns.unique {r r' : β} (h : Returns f r) (h' : Returns f r') : r = r' := by
  obtain ⟨n, hn⟩ := h
  obtain ⟨n', hn'⟩ := h'
  exact Option.some.inj ((hn _ (Nat.le_max_left n n')).symm.trans (hn' _ (Nat.le_max_right n n')))

theorem Returns.map {γ : Type} {r : β} (h : Returns f r) (g : β → γ) :
    Returns (fun fuel => (f fuel).map g) (g r) := by
  obtain ⟨n, hn⟩ := h
  refine ⟨n, fun fuel hf => ?_⟩
  show (f fuel).map g = some (g r)
  rw [hn fuel hf]
  rfl

/-- Follow `next` from `a` to the first `c` with `stop c`. -/
def seek (next : α → α) (stop : α → Prop) [DecidablePred stop] : ℕ → α → Option α
  | 0, _ => none
  | fuel + 1, a => if stop a then some a else seek next stop fuel (next a)

section Seek

variable {next : α → α} {stop : α → Prop} [DecidablePred stop] {l m : List α} {a c q : α}

theorem seek_monotone (a : α) : FuelMono fun fuel => seek next stop fuel a := by
  intro fuel
  induction fuel generalizing a with
  | zero => exact nofun
  | succ fuel ih =>
    intro r h
    change (if stop a then some a else seek next stop fuel (next a)) = some r at h
    show (if stop a then some a else seek next stop (fuel + 1) (next a)) = some r
    split_ifs at h ⊢
    · exact h
    · exact ih (next a) r h

theorem seek_trail (ht : Trail next (q :: m) c) (hm : ∀ x ∈ q :: m, ¬ stop x) (hc : stop c) :
    Returns (fun fuel => seek next stop fuel q) c := by
  induction m generalizing q with
  | nil =>
    refine (seek_monotone q).returns 2 ?_
    have hq : next q = c := ht.1
    show (if stop q then some q else if stop (next q) then some (next q) else none) = some c
    rw [if_neg (hm q mem_cons_self), hq, if_pos hc]
  | cons x m ih =>
    have hx : next q = x := ht.1
    obtain ⟨n, hn⟩ := ih ht.2 fun y hy => hm y (mem_cons_of_mem q hy)
    refine ⟨n + 1, fun fuel hf => ?_⟩
    obtain ⟨fuel, rfl⟩ : ∃ f, fuel = f + 1 := ⟨fuel - 1, by omega⟩
    show (if stop q then some q else seek next stop fuel (next q)) = some c
    rw [if_neg (hm q mem_cons_self), hx]
    exact hn fuel (by omega)

/-- On a circular list the walk ends, if it can end anywhere. -/
theorem seek_circular (h : Trail next (a :: l) a) (hn : (a :: l).Nodup) (hq : q ∈ a :: l)
    (hs : ∃ x ∈ a :: l, stop x) :
    ∃ c ∈ a :: l, stop c ∧ Returns (fun fuel => seek next stop fuel q) c := by
  by_cases hstop : stop q
  · exact ⟨q, hq, hstop, (seek_monotone q).returns 1 (if_pos hstop)⟩
  · obtain ⟨m, c, ht, hm, hc, _, hend⟩ := h.search hn hq stop
    have hcs : stop c := by
      rcases hend with hcs | ⟨_, hno⟩
      · exact hcs
      · obtain ⟨x, hx, hxs⟩ := hs
        exact absurd hxs (hno x hx fun hxq => hstop (hxq ▸ hxs))
    refine ⟨c, hc, hcs, seek_trail ht ?_ hcs⟩
    intro x hx
    rcases List.mem_cons.mp hx with rfl | hx
    · exact hstop
    · exact (hm x hx).1

end Seek

end Xv6.Lib
