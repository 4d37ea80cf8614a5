/-
  Circular doubly linked lists with a sentinel.

  A pointer is a cell or the sentinel (`none`). `Linked d l`: from the sentinel the `next` pointers
  lead through the cells of `l` and back to the sentinel, and the `prev` pointers lead the other
  way. `pushFront` and `unlink` are the usual pointer assignments, in their usual order, and `scan`
  is a loop that follows one kind of pointer until it comes back to the sentinel.
-/
import Mathlib

namespace Xv6.Lib

open Function List Option

structure Dll (ι : Type) where
  next : Option ι → Option ι
  prev : Option ι → Option ι

namespace Dll

variable {ι : Type}

/-- From `p` through the cells of `l` to `q`, and back. -/
def Path (d : Dll ι) : Option ι → List ι → Option ι → Prop
  | p, [], q => d.next p = q ∧ d.prev q = p
  | p, x :: l, q => d.next p = some x ∧ d.prev (some x) = p ∧ d.Path (some x) l q

def Linked (d : Dll ι) (l : List ι) : Prop := d.Path none l none ∧ l.Nodup

/-- The sentinel alone. -/
def empty : Dll ι := ⟨fun _ => none, fun _ => none⟩

theorem linked_empty : (empty : Dll ι).Linked [] := ⟨⟨rfl, rfl⟩, nodup_nil⟩

/-! ## Paths -/

variable {d d' : Dll ι} {p q : Option ι} {l l1 l2 : List ι} {x : ι}

theorem path_append : d.Path p (l1 ++ x :: l2) q ↔ d.Path p l1 (some x) ∧ d.Path (some x) l2 q := by
  induction l1 generalizing p with
  | nil => exact and_assoc.symm
  | cons y l1 ih =>
    show _ ∧ _ ∧ d.Path (some y) (l1 ++ x :: l2) q ↔ (_ ∧ _ ∧ _) ∧ _
    rw [ih]
    tauto

/-- A path depends on the pointers along it. -/
theorem Path.congr (h : d.Path p l q) (hn : d'.next p = d.next p)
    (hp : d'.prev q = d.prev q) (hl : ∀ y ∈ l, d'.next (some y) = d.next (some y) ∧
      d'.prev (some y) = d.prev (some y)) : d'.Path p l q := by
  induction l generalizing p with
  | nil => exact ⟨hn.trans h.1, hp.trans h.2⟩
  | cons y l ih =>
    obtain ⟨h1, h2, h3⟩ := h
    have hy := hl y mem_cons_self
    exact ⟨hn.trans h1, hy.2.trans h2, ih h3 hy.1 fun z hz => hl z (mem_cons_of_mem _ hz)⟩

/-- The same list, read backwards. -/
def flip (d : Dll ι) : Dll ι := ⟨d.prev, d.next⟩

theorem Path.flip (h : d.Path p l q) : d.flip.Path q l.reverse p := by
  induction l generalizing p with
  | nil => exact ⟨h.2, h.1⟩
  | cons y l ih =>
    obtain ⟨h1, h2, h3⟩ := h
    rw [reverse_cons]
    exact path_append.mpr ⟨ih h3, h2, h1⟩

/-- Where a path ends: the pointer back from `q` is to its last cell, or to its start. -/
theorem Path.prev_end (h : d.Path p l q) : d.prev q = p ∨ ∃ y ∈ l, d.prev q = some y := by
  induction l generalizing p with
  | nil => exact .inl h.2
  | cons y l ih =>
    rcases ih h.2.2 with h' | ⟨z, hz, h'⟩
    · exact .inr ⟨y, mem_cons_self, h'⟩
    · exact .inr ⟨z, mem_cons_of_mem _ hz, h'⟩

theorem Path.next_start (h : d.Path p l q) : d.next p = q ∨ ∃ y ∈ l, d.next p = some y := by
  cases l with
  | nil => exact .inl h.1
  | cons y l => exact .inr ⟨y, mem_cons_self, h.1⟩

/-! ## Loops -/

/-- `for(b = p; b != &head; b = b->next) if(f(b)) return b;`, for at most `k` rounds. -/
def scan (next : Option ι → Option ι) (f : ι → Bool) : ℕ → Option ι → Option ι
  | 0, _ => none
  | _ + 1, none => none
  | k + 1, some x => if f x then some x else scan next f k (next (some x))

theorem Path.scan (h : d.Path p l none) (f : ι → Bool) {k : ℕ} (hk : l.length < k) :
    Dll.scan d.next f k (d.next p) = l.find? f := by
  induction l generalizing p k with
  | nil =>
    rw [h.1]
    cases k <;> rfl
  | cons y l ih =>
    obtain ⟨h1, _, h3⟩ := h
    cases k with
    | zero => exact absurd hk (Nat.not_lt_zero _)
    | succ k =>
      rw [h1, List.find?_cons]
      show (if f y then some y else Dll.scan d.next f k (d.next (some y))) = _
      rw [ih h3 (Nat.lt_of_succ_lt_succ hk)]
      cases f y <;> rfl

theorem Linked.scan_next (h : d.Linked l) (f : ι → Bool) {k : ℕ} (hk : l.length < k) :
    Dll.scan d.next f k (d.next none) = l.find? f :=
  h.1.scan f hk

theorem Linked.scan_prev (h : d.Linked l) (f : ι → Bool) {k : ℕ} (hk : l.length < k) :
    Dll.scan d.prev f k (d.prev none) = l.reverse.find? f :=
  h.1.flip.scan f (by rwa [length_reverse])

/-! ## Assignments -/

variable [DecidableEq ι]

def setNext (d : Dll ι) (p q : Option ι) : Dll ι := { d with next := update d.next p q }

def setPrev (d : Dll ι) (p q : Option ι) : Dll ι := { d with prev := update d.prev p q }

/-- Puts `b` behind the sentinel: `b->next = head.next; b->prev = &head; head.next->prev = b;
head.next = b`. -/
def pushFront (d : Dll ι) (b : ι) : Dll ι :=
  let d := d.setNext (some b) (d.next none)
  let d := d.setPrev (some b) none
  let d := d.setPrev (d.next none) (some b)
  d.setNext none (some b)

/-- Takes `b` out: `b->next->prev = b->prev; b->prev->next = b->next`. -/
def unlink (d : Dll ι) (b : ι) : Dll ι :=
  let d := d.setPrev (d.next (some b)) (d.prev (some b))
  d.setNext (d.prev (some b)) (d.next (some b))

theorem pushFront_next (d : Dll ι) (x : ι) (y : Option ι) : (d.pushFront x).next y =
    if y = none then some x else if y = some x then d.next none else d.next y := by
  simp only [pushFront, setNext, setPrev, update_apply]

theorem pushFront_prev (d : Dll ι) (x : ι) (y : Option ι) : (d.pushFront x).prev y =
    if y = d.next none then some x else if y = some x then none else d.prev y := by
  simp only [pushFront, setNext, setPrev, update_apply, reduceCtorEq, if_false]

theorem Linked.pushFront (h : d.Linked l) (hx : x ∉ l) : (d.pushFront x).Linked (x :: l) := by
  have hnx : some x ≠ d.next none := by
    rcases h.1.next_start with h' | ⟨y, hy, h'⟩
    · rw [h']
      exact nofun
    · rw [h']
      rintro ⟨⟩
      exact hx hy
  have hne : ∀ y ∈ l, some y ≠ some x := fun y hy h => hx (some.inj h ▸ hy)
  refine ⟨⟨?_, ?_, ?_⟩, List.nodup_cons.mpr ⟨hx, h.2⟩⟩
  · rw [pushFront_next, if_pos rfl]
  · rw [pushFront_prev, if_neg hnx, if_pos rfl]
  have hnext : (d.pushFront x).next (some x) = d.next none := by
    rw [pushFront_next, if_neg nofun, if_pos rfl]
  have hprev : (d.pushFront x).prev (d.next none) = some x := by
    rw [pushFront_prev, if_pos rfl]
  cases l with
  | nil =>
    rw [h.1.1] at hnext hprev
    exact ⟨hnext, hprev⟩
  | cons y l =>
    obtain ⟨h1, _, h3⟩ := h.1
    rw [h1] at hnext hprev
    have hy := List.nodup_cons.mp h.2
    have hkeep : ∀ z ∈ y :: l, (d.pushFront x).next (some z) = d.next (some z) := by
      intro z hz
      rw [pushFront_next, if_neg nofun, if_neg (hne z hz)]
    refine ⟨hnext, hprev, h3.congr (hkeep y mem_cons_self) ?_ fun z hz => ?_⟩
    · rw [pushFront_prev, h1, if_neg nofun, if_neg nofun]
    · have hz' := mem_cons_of_mem y hz
      have hzy : some z ≠ some y := fun h => hy.1 (some.inj h ▸ hz)
      refine ⟨hkeep z hz', ?_⟩
      rw [pushFront_prev, h1, if_neg hzy, if_neg (hne z hz')]

/-- A path whose end is moved from `q` to `q'`. -/
theorem Path.moveEnd (h : d.Path p l q) {q' : Option ι} (hp : ∀ y ∈ l, some y ≠ p)
    (hl : l.Nodup) (hq : ∀ y ∈ l, some y ≠ q')
    (hn : ∀ y, d'.next y = if y = d.prev q then q' else d.next y)
    (hb : ∀ y, d'.prev y = if y = q' then d.prev q else d.prev y) : d'.Path p l q' := by
  induction l generalizing p with
  | nil =>
    have h2 := h.2
    refine ⟨?_, ?_⟩
    · rw [hn, if_pos h2.symm]
    · rw [hb, if_pos rfl]
      exact h2
  | cons y l ih =>
    obtain ⟨h1, h2, h3⟩ := h
    have hy := List.nodup_cons.mp hl
    refine ⟨?_, ?_, ih h3 (fun z hz hzy => hy.1 (some.inj hzy ▸ hz)) hy.2
      fun z hz => hq z (mem_cons_of_mem _ hz)⟩
    · have hne : p ≠ d.prev q := by
        rcases h3.prev_end with h' | ⟨z, hz, h'⟩
        · rw [h']
          exact (hp y mem_cons_self).symm
        · rw [h']
          exact (hp z (mem_cons_of_mem _ hz)).symm
      rw [hn, if_neg hne]
      exact h1
    · rw [hb, if_neg (hq y mem_cons_self)]
      exact h2

/-- What `unlink` does where `x` is not its own successor. -/
theorem unlink_next (d : Dll ι) (x : ι) (hx : some x ≠ d.next (some x)) (y : Option ι) :
    (d.unlink x).next y = if y = d.prev (some x) then d.next (some x) else d.next y := by
  simp only [unlink, setNext, setPrev, update_apply, if_neg hx]

theorem unlink_prev (d : Dll ι) (x : ι) (y : Option ι) :
    (d.unlink x).prev y = if y = d.next (some x) then d.prev (some x) else d.prev y := by
  simp only [unlink, setNext, setPrev, update_apply]

theorem Linked.unlink (h : d.Linked (l1 ++ x :: l2)) : (d.unlink x).Linked (l1 ++ l2) := by
  obtain ⟨hpath, hnodup⟩ := h
  obtain ⟨h1, h2⟩ := path_append.mp hpath
  have hd := List.nodup_append.mp hnodup
  have hx2 := List.nodup_cons.mp hd.2.1
  have hdisj : ∀ y ∈ l1, ∀ z ∈ x :: l2, some y ≠ some z := fun y hy z hz h =>
    hd.2.2 y hy z hz (some.inj h)
  have hqx : some x ≠ d.next (some x) := by
    rcases h2.next_start with h' | ⟨y, hy, h'⟩
    · rw [h']
      exact nofun
    · rw [h']
      exact fun h => hx2.1 (some.inj h ▸ hy)
  have hmove : (∀ y ∈ l1, some y ≠ d.next (some x)) → (d.unlink x).Path none l1 (d.next (some x)) :=
    fun hq => h1.moveEnd (fun y _ h => nomatch h) hd.1 hq (unlink_next d x hqx) (unlink_prev d x)
  refine ⟨?_, List.nodup_append.mpr
    ⟨hd.1, hx2.2, fun y hy z hz => hd.2.2 y hy z (mem_cons_of_mem _ hz)⟩⟩
  cases l2 with
  | nil =>
    rw [h2.1] at hmove
    rw [append_nil]
    exact hmove fun y _ h => nomatch h
  | cons z l2 =>
    obtain ⟨h21, _, h23⟩ := h2
    rw [h21] at hmove
    have hz := List.nodup_cons.mp hx2.2
    -- nothing points to the cells behind `z`
    have hprev : ∀ y ∈ z :: l2, some y ≠ d.prev (some x) := by
      intro y hy
      rcases h1.prev_end with h' | ⟨w, hw, h'⟩
      · rw [h']
        exact nofun
      · rw [h']
        exact (hdisj w hw y (mem_cons_of_mem _ hy)).symm
    have hnext : ∀ y ∈ z :: l2, (d.unlink x).next (some y) = d.next (some y) := fun y hy => by
      rw [unlink_next d x hqx, if_neg (hprev y hy)]
    refine path_append.mpr
      ⟨hmove fun y hy => hdisj y hy z (by simp), h23.congr (hnext z mem_cons_self) ?_
      fun y hy => ⟨hnext y (mem_cons_of_mem _ hy), ?_⟩⟩
    · rw [unlink_prev, h21, if_neg nofun]
    · have hyz : some y ≠ some z := fun h => hz.1 (some.inj h ▸ hy)
      rw [unlink_prev, h21, if_neg hyz]

/-- A cell is moved to the front. -/
theorem Linked.moveFront (h : d.Linked l) (hx : x ∈ l) :
    ((d.unlink x).pushFront x).Linked (x :: l.erase x) := by
  obtain ⟨l1, l2, hl1, rfl, he⟩ := exists_erase_eq hx
  rw [he]
  refine h.unlink.pushFront fun hm => ?_
  have hd := (List.nodup_append.mp h.2).2.1
  rcases List.mem_append.mp hm with hm | hm
  · exact hl1 hm
  · exact (List.nodup_cons.mp hd).1 hm

end Dll

end Xv6.Lib
