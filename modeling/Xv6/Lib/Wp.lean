/-
  A program logic for programs over reference-counted pages.

  `Heap` is what is in use: of each page that is not free, its count and its contents.
  `Consistent` ties a heap to a store: the pages that are not in the heap are on the free list,
  each once, and the counts and contents are those of the heap. `wp Q m h b` : run with the heap
  `h` and `b` free pages, the program `m` only touches pages in use and ends with `Q`, or fails with
  an error in `E`. `wp_run` is soundness.
-/
import Xv6.Lib.Prog

namespace Xv6.Lib

open Function

variable {D ε α β : Type}

/-! ## Heaps -/

/-- The count and the contents of a page that is in use. -/
abbrev Cell (D : Type) := Option (ℕ × D)

abbrev Heap (D : Type) := ℕ → Cell D

def Heap.set (h : Heap D) (p : ℕ) (c : Cell D) : Heap D := update h p c

@[simp] theorem Heap.set_same (h : Heap D) (p : ℕ) (c : Cell D) : h.set p c p = c := by
  unfold Heap.set
  exact update_self p c h

@[simp] theorem Heap.set_ne (h : Heap D) {p q : ℕ} (c : Cell D) (hq : q ≠ p) :
    h.set p c q = h q := by
  unfold Heap.set
  exact update_of_ne hq c h

theorem Heap.set_set (h : Heap D) (p : ℕ) (c c' : Cell D) : (h.set p c).set p c' = h.set p c' := by
  unfold Heap.set
  exact update_idem (a := p) c c' h

/-- The references to a page. -/
def Cell.refs (c : Cell D) : ℕ := c.elim 0 Prod.fst

/-- Its contents. -/
def Cell.val (c : Cell D) : Option D := c.map Prod.snd

/-- The store is what the heap says. `R` is the set of managed pages. -/
structure Consistent (R : Finset ℕ) (s : Store D) (h : Heap D) : Prop where
  nodup : s.free.Nodup
  free : ∀ p, p ∈ s.free ↔ p ∈ R ∧ h p = none
  range : ∀ p, h p ≠ none → p ∈ R
  count : ∀ p ∈ R, s.count p = (h p).refs
  data : ∀ p n d, h p = some (n, d) → s.data p = d

/-! ## The rules -/

variable (R : Finset ℕ) (E : ε → Prop)

def wp (Q : α → Heap D → ℕ → Prop) : Prog D ε α → Heap D → ℕ → Prop
  | .ret a, h, b => Q a h b
  | .fail e, _, _ => E e
  | .pop k, h, b =>
    (b = 0 → wp Q (k none) h b) ∧
    ∀ p d, p ∈ R → h p = none → 0 < b → wp Q (k (some p)) (h.set p (some (0, d))) (b - 1)
  | .init p k, h, b => ∃ n d, h p = some (n, d) ∧ wp Q k (h.set p (some (1, d))) b
  | .drop p k, h, b => ∃ n d, h p = some (n + 1, d) ∧ wp Q (k n) (h.set p (some (n, d))) b
  | .grab p k, h, b => ∃ n d, h p = some (n, d) ∧ wp Q k (h.set p (some (n + 1, d))) b
  | .push p k, h, b => ∃ d, h p = some (0, d) ∧ wp Q k (h.set p none) (b + 1)
  | .read p k, h, b => ∃ n d, h p = some (n, d) ∧ wp Q (k d) h b
  | .write p d k, h, b => ∃ n d0, h p = some (n, d0) ∧ wp Q k (h.set p (some (n, d))) b

variable {R E} {Q Q' : α → Heap D → ℕ → Prop} {h : Heap D} {b : ℕ} {m : Prog D ε α}

/-- The rule for one program after another. -/
theorem wp_bind {f : α → Prog D ε β} {P : β → Heap D → ℕ → Prop}
    (hQ : ∀ a h b, Q a h b → wp R E P (f a) h b) (hm : wp R E Q m h b) :
    wp R E P (m.bind f) h b := by
  induction m generalizing h b with
  | ret a => exact hQ a h b hm
  | fail e => exact hm
  | pop k ih => exact ⟨fun hb => ih _ (hm.1 hb), fun p d hp hn hb => ih _ (hm.2 p d hp hn hb)⟩
  | init p k ih | grab p k ih | write p d k ih =>
    obtain ⟨n, d, hp, hm⟩ := hm
    exact ⟨n, d, hp, ih hm⟩
  | drop p k ih | read p k ih =>
    obtain ⟨n, d, hp, hm⟩ := hm
    exact ⟨n, d, hp, ih _ hm⟩
  | push p k ih =>
    obtain ⟨d, hp, hm⟩ := hm
    exact ⟨d, hp, ih hm⟩

theorem wp_mono (hQ : ∀ a h b, Q a h b → Q' a h b) (hm : wp R E Q m h b) : wp R E Q' m h b := by
  rw [← m.bind_ret]
  exact wp_bind hQ hm

theorem wp_seq {f : α → Prog D ε β} {Q : β → Heap D → ℕ → Prop}
    (hm : wp R E (fun a h b => wp R E Q (f a) h b) m h b) : wp R E Q (m >>= f) h b :=
  wp_bind (fun _ _ _ h => h) hm

/-- The rule for a counted loop: `I j` holds before round `j`. -/
theorem wp_times {f : ℕ → Prog D ε Unit} {I : ℕ → Heap D → ℕ → Prop} {n i : ℕ} (h0 : I i h b)
    (hstep : ∀ j h b, i ≤ j → j < i + n → I j h b → wp R E (fun _ => I (j + 1)) (f j) h b) :
    wp R E (fun _ => I (i + n)) (.times f n i) h b := by
  induction n generalizing i h b with
  | zero => exact h0
  | succ n ih =>
    refine wp_bind ?_ (hstep i h b (Nat.le_refl i) (by omega) h0)
    intro _ h b hi
    rw [show i + (n + 1) = i + 1 + n by omega]
    exact ih hi fun j h b hij hjn hj => hstep j h b (by omega) (by omega) hj

/-! ## Soundness -/

section Sound

variable {s s' : Store D} {p n : ℕ} {d : D} {c : Cell D}

/-- The heap's cell and the store's entries for one page change together. -/
theorem Consistent.put (hc : Consistent R s h) (hp : p ∈ R)
    (hcount : ∀ q, q ≠ p → s'.count q = s.count q) (hdata : ∀ q, q ≠ p → s'.data q = s.data q)
    (hfree : ∀ q, q ≠ p → (q ∈ s'.free ↔ q ∈ s.free)) (hnodup : s'.free.Nodup)
    (hpfree : p ∈ s'.free ↔ c = none) (hpcount : s'.count p = c.refs)
    (hpdata : ∀ n d, c = some (n, d) → s'.data p = d) : Consistent R s' (h.set p c) where
  nodup := hnodup
  free q := by
    by_cases hq : q = p
    · rw [hq, hpfree, Heap.set_same]
      exact ⟨fun hn => ⟨hp, hn⟩, And.right⟩
    · rw [hfree q hq, hc.free, Heap.set_ne h c hq]
  range q hq := by
    by_cases hqp : q = p
    · exact hqp ▸ hp
    · rw [Heap.set_ne h c hqp] at hq
      exact hc.range q hq
  count q hq := by
    by_cases hqp : q = p
    · rw [hqp, hpcount, Heap.set_same]
    · rw [hcount q hqp, hc.count q hq, Heap.set_ne h c hqp]
  data q n d hd := by
    by_cases hqp : q = p
    · rw [hqp, Heap.set_same] at hd
      rw [hqp, hpdata n d hd]
    · rw [Heap.set_ne h c hqp] at hd
      rw [hdata q hqp, hc.data q n d hd]

theorem Consistent.pop (hc : Consistent R s h) {free : List ℕ} (hf : s.free = p :: free) :
    Consistent R { s with free := free } (h.set p (some (0, s.data p))) := by
  have hmem : p ∈ s.free := by rw [hf]; exact List.mem_cons_self
  obtain ⟨hR, hnone⟩ := (hc.free p).mp hmem
  obtain ⟨hp, hnd⟩ := List.nodup_cons.mp (hf ▸ hc.nodup)
  refine hc.put hR (fun _ _ => rfl) (fun _ _ => rfl) ?_ hnd (by simp [hp]) ?_ (by simp)
  · intro q hq
    rw [hf, List.mem_cons]
    simp [hq]
  · show s.count p = _
    rw [hc.count p hR, hnone]
    rfl

theorem Consistent.push (hc : Consistent R s h) (hp : h p = some (0, d)) :
    Consistent R { s with free := p :: s.free } (h.set p none) := by
  have hheld : h p ≠ none := by simp [hp]
  have hnf : p ∉ s.free := fun hf => hheld ((hc.free p).mp hf).2
  have hR := hc.range p hheld
  refine hc.put hR (fun _ _ => rfl) (fun _ _ => rfl) ?_ (List.nodup_cons.mpr ⟨hnf, hc.nodup⟩)
    (by simp) ?_ (by simp)
  · intro q hq
    simp [hq]
  · show s.count p = _
    rw [hc.count p hR, hp]
    rfl

/-- A page in use gets another count or other contents. -/
theorem Consistent.hold (hc : Consistent R s h) (hp : h p ≠ none) {x : ℤ} (hx : x = n) :
    Consistent R { s with count := update s.count p x, data := update s.data p d }
      (h.set p (some (n, d))) := by
  have hnf : p ∉ s.free := fun hf => hp ((hc.free p).mp hf).2
  refine hc.put (hc.range p hp) ?_ ?_ (fun _ _ => Iff.rfl) hc.nodup (by simp [hnf]) ?_ ?_
  · exact fun q hq => update_of_ne hq _ _
  · exact fun q hq => update_of_ne hq _ _
  · show update s.count p x p = _
    rw [update_self, hx]
    rfl
  · intro n' d' hd
    cases hd
    exact update_self p d s.data

theorem Consistent.recount (hc : Consistent R s h) {n' : ℕ} (hp : h p = some (n, d)) {x : ℤ}
    (hx : x = n') :
    Consistent R { s with count := update s.count p x } (h.set p (some (n', d))) := by
  have hput := hc.hold (p := p) (d := d) (by simp [hp]) hx
  rwa [← hc.data p n d hp, update_eq_self, hc.data p n d hp] at hput

theorem Consistent.count_held (hc : Consistent R s h) (hp : h p = some (n, d)) : s.count p = n := by
  rw [hc.count p (hc.range p (by simp [hp])), hp]
  rfl

/-- A program has ended. -/
def Ended (R : Finset ℕ) (E : ε → Prop) (Q : α → Heap D → ℕ → Prop) (r : Except ε α × Store D) :
    Prop :=
  (∃ e s, r = (.error e, s) ∧ E e) ∨ ∃ a s h, r = (.ok a, s) ∧ Consistent R s h ∧
  Q a h s.free.length

/-- **Soundness.** -/
theorem wp_run (hc : Consistent R s h) (hm : wp R E Q m h s.free.length) :
    Ended R E Q (m.run s) := by
  induction m generalizing s h with
  | ret a => exact .inr ⟨a, s, h, rfl, hc, hm⟩
  | fail e => exact .inl ⟨e, s, rfl, hm⟩
  | pop f ih =>
    cases hf : s.free with
    | nil =>
      rw [show (Prog.pop f).run s = (f none).run s by simp only [Prog.run, hf]]
      exact ih _ hc (hm.1 (by rw [hf]; rfl))
    | cons p free =>
      have hmem : p ∈ s.free := by rw [hf]; exact List.mem_cons_self
      obtain ⟨hR, hnone⟩ := (hc.free p).mp hmem
      have hlen : s.free.length = free.length + 1 := by rw [hf]; rfl
      have hrest := hm.2 p (s.data p) hR hnone (by omega)
      rw [hlen, Nat.add_sub_cancel] at hrest
      rw [show (Prog.pop f).run s = (f (some p)).run _ by simp only [Prog.run, hf]; rfl]
      exact ih _ (hc.pop hf) hrest
  | init p f ih =>
    obtain ⟨n, d, hp, hm⟩ := hm
    exact ih (hc.recount hp rfl) hm
  | drop p f ih =>
    obtain ⟨n, d, hp, hm⟩ := hm
    have hcount : dropped (s.count p) = n := by
      rw [hc.count_held hp, dropped_of_pos (by omega)]
      push_cast
      ring
    rw [Prog.run, hcount]
    exact ih _ (hc.recount hp rfl) hm
  | grab p f ih =>
    obtain ⟨n, d, hp, hm⟩ := hm
    exact ih (hc.recount hp (by rw [hc.count_held hp]; rfl)) hm
  | push p f ih =>
    obtain ⟨d, hp, hm⟩ := hm
    exact ih (hc.push hp) hm
  | read p f ih =>
    obtain ⟨n, d, hp, hm⟩ := hm
    rw [Prog.run, hc.data p n d hp]
    exact ih _ hc hm
  | write p d f ih =>
    obtain ⟨n, d0, hp, hm⟩ := hm
    have hput := hc.hold (p := p) (d := d) (x := s.count p) (by simp [hp]) (hc.count_held hp)
    rw [update_eq_self] at hput
    exact ih hput hm

end Sound

end Xv6.Lib
