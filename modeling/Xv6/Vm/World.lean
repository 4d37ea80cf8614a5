/-
  The memory of all processes on one store.

  A specification is about a heap. With the store behind the heap it becomes a statement about
  runs: the program, run from there, does not panic.
-/
import Xv6.Vm.Contents

namespace Xv6.Vm

open Lib

variable {α : Type} {L : Layout} {s : Store PageData} {h : PageHeap} {G : Forest}

/-- The tables and pages of `G`, with the contents `h`, are what is in use in the store. -/
structure World (L : Layout) (s : Store PageData) (h : PageHeap) (G : Forest) : Prop where
  consistent : Consistent L.managed s h
  holds : Holds L G h

section

variable {E : Panic → Prop} {m : K α} {P : α → PageHeap → Forest → Prop}

theorem World.run_or (hw : World L s h G)
    (hm : Spec L E (fun a h' _ => ∃ G', Holds L G' h' ∧ P a h' G') m h s.free.length) :
    (∃ e s', m.run s = (.error e, s') ∧ E e) ∨
      ∃ a s' h' G', m.run s = (.ok a, s') ∧ World L s' h' G' ∧ P a h' G' := by
  rcases wp_run hw.consistent hm with hE | ⟨a, s', h', hrun, hc, G', hH, hP⟩
  · exact .inl hE
  · exact .inr ⟨a, s', h', G', hrun, ⟨hc, hH⟩, hP⟩

theorem World.run (hw : World L s h G)
    (hm : Spec L (fun _ => False) (fun a h' _ => ∃ G', Holds L G' h' ∧ P a h' G')
      m h s.free.length) :
    ∃ a s' h' G', m.run s = (.ok a, s') ∧ World L s' h' G' ∧ P a h' G' := by
  rcases hw.run_or hm with ⟨_, _, _, hE⟩ | hok
  · exact hE.elim
  · exact hok

end

/-- No tables and no pages. -/
def Forest.empty : Forest := ⟨fun _ _ => none, fun _ _ => .zero, ∅⟩

theorem Holds.empty (L : Layout) : Holds L .empty fun _ => none where
  table _ _ _ h := nomatch h
  inj _ _ _ _ _ h := nomatch h
  mid_up _ _ _ := rfl
  bot_up _ _ _ _ := rfl
  leafless _ _ _ _ _ := rfl
  bound _ _ _ := rfl
  apart _ _ h := h
  range _ h := absurd rfl h
  own _ h := h.elim
  kern _ _ := Forest.refs_eq_zero fun _ _ => rfl
  user _ _ := .inl ⟨Forest.refs_eq_zero fun _ _ => rfl, rfl⟩
  writable _ _ _ h := nomatch h

end Xv6.Vm
