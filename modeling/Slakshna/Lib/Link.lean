import Mathlib.Data.List.Perm.Basic

/-! A link from one sender to one receiver. It may hold what it carries, hand it over in another
order and lose it, but it neither makes nor repeats anything. -/
namespace Slakshna

structure Link (α : Type*) where
  sent : List α
  arrived : List α
  lost : List α
  transit : List α

namespace Link
variable {α : Type*}

structure Promise where
  inOrder : Prop
  lossless : Prop

def noPromise : Promise := ⟨False, False⟩

def reliable : Promise := ⟨True, True⟩

inductive Moves (p : Promise) : Link α → Link α → Prop where
  | idle (l : Link α) : Moves p l l
  | send (l : Link α) (xs : List α) :
      Moves p l { l with sent := l.sent ++ xs, transit := l.transit ++ xs }
  | arrive (l : Link α) (older newer : List α) (x : α) (h : l.transit = older ++ x :: newer)
      (horder : p.inOrder → older = []) :
      Moves p l { l with arrived := l.arrived ++ [x], transit := older ++ newer }
  | lose (l : Link α) (older newer : List α) (x : α) (h : l.transit = older ++ x :: newer)
      (hloss : ¬ p.lossless) :
      Moves p l { l with lost := l.lost ++ [x], transit := older ++ newer }

structure Conserved (p : Promise) (l : Link α) : Prop where
  account : l.sent.Perm (l.arrived ++ (l.lost ++ l.transit))
  order : p.inOrder → (l.arrived ++ l.transit).Sublist l.sent
  loss : p.lossless → l.lost = []

theorem conserved_nil (p : Promise) : Conserved p (⟨[], [], [], []⟩ : Link α) where
  account := List.Perm.refl _
  order := fun _ => List.Sublist.refl _
  loss := fun _ => rfl

theorem conserved_moves {p : Promise} {l l' : Link α} (h : Conserved p l) (hmove : Moves p l l') :
    Conserved p l' := by
  cases hmove with
  | idle => exact h
  | send xs =>
    refine ⟨?_, fun hp => ?_, h.loss⟩
    · simpa [List.append_assoc] using h.account.append_right xs
    · simpa [List.append_assoc] using (h.order hp).append_right xs
  | arrive older newer x htransit horder =>
    have haccount := h.account
    rw [htransit] at haccount
    refine ⟨haccount.trans ?_, fun hp => ?_, h.loss⟩
    · simp only [List.append_assoc, List.singleton_append]
      refine List.Perm.append_left l.arrived ?_
      rw [← List.append_assoc, ← List.append_assoc]
      exact List.perm_middle
    · have hsub := h.order hp
      rw [htransit, horder hp] at hsub
      simpa [horder hp] using hsub
  | lose older newer x htransit hloss =>
    have haccount := h.account
    rw [htransit] at haccount
    refine ⟨haccount.trans ?_, fun hp => ?_, fun hp => absurd hp hloss⟩
    · simp only [List.append_assoc, List.singleton_append]
      refine (List.Perm.append_left l.lost ?_).append_left l.arrived
      exact List.perm_middle
    · have hsub := h.order hp
      rw [htransit] at hsub
      refine List.Sublist.trans ?_ hsub
      exact ((List.sublist_cons_self x newer).append_left older).append_left l.arrived

theorem Conserved.subperm {p : Promise} {l : Link α} (h : Conserved p l) :
    l.arrived.Subperm l.sent :=
  ((List.sublist_append_left _ _).subperm).trans h.account.symm.subperm

theorem Conserved.queue {p : Promise} {l : Link α} (h : Conserved p l) (horder : p.inOrder)
    (hloss : p.lossless) : l.arrived ++ l.transit = l.sent := by
  have haccount := h.account
  rw [h.loss hloss, List.nil_append] at haccount
  exact (h.order horder).eq_of_length haccount.length_eq.symm

theorem Conserved.settled {p : Promise} {l : Link α} (h : Conserved p l) (hlost : l.lost = [])
    (htransit : l.transit = []) : l.sent.Perm l.arrived := by
  have haccount := h.account
  rwa [hlost, htransit, List.append_nil, List.append_nil] at haccount

def after (sent arrived : List α) (l : Link α) : Link α :=
  { l with sent := sent ++ l.sent, arrived := arrived ++ l.arrived }

theorem moves_after {p : Promise} {l l' : Link α} (sent arrived : List α) (h : Moves p l l') :
    Moves p (l.after sent arrived) (l'.after sent arrived) := by
  cases h with
  | idle => exact Moves.idle _
  | send xs => simpa [after] using Moves.send (l.after sent arrived) xs
  | arrive older newer x htransit horder =>
    simpa [after] using Moves.arrive (l.after sent arrived) older newer x htransit horder
  | lose older newer x htransit hloss =>
    exact Moves.lose (l.after sent arrived) older newer x htransit hloss

theorem Conserved.cut {p : Promise} {sent arrived lost transit xs : List α}
    (h : Conserved p ⟨sent ++ xs, arrived, lost, transit ++ xs⟩) :
    Conserved p ⟨sent, arrived, lost, transit⟩ where
  account := by
    have haccount := h.account
    simp only [← List.append_assoc] at haccount
    simpa using (List.perm_append_right_iff xs).1 haccount
  order := fun hp => by
    have horder := h.order hp
    simp only [← List.append_assoc] at horder
    exact (List.append_sublist_append_right xs).1 horder
  loss := h.loss

end Link
end Slakshna
