import Mathlib.Data.List.TakeWhile
import Ginkgo.Lib.Fallible

/-!
# Reading terminated lists

A program that reads a string reads characters one after the other until the terminator `z`, or
until it knows what it returns.  Its argument is the list of the characters that can be read, which
may end before the terminator; reading behind its end is the failure `e`.

Such a program decides a function `L` of strings if it returns the value of `L` for the characters
before the terminator.  A list without terminator is read to its end, and past it, exactly if it can
be continued to a string that is accepted, that is, whose value is not `no`.  The relation is proved
character by character: what a program does after it has read a character decides the function of
the characters that follow.

## Main results

* `Terminated.Decides.loop`, `Terminated.Decides.cons` — the rules for the first character.
* `Terminated.Decides.eq_ok` — what a program returns for a terminated list.
-/

namespace Terminated

universe u v w

variable {α : Type u} {ε : Type v} {β : Type w}

/-- The program `f` decides the function `L` of strings with the terminator `z`. -/
structure Decides (z : α) (e : ε) (no : β) (f : List α → Except ε β) (L : List α → β) : Prop where
  ended : ∀ s rest, z ∉ s → f (s ++ z :: rest) = .ok (L s)
  cut_live : ∀ m, z ∉ m → (∃ s, z ∉ s ∧ L (m ++ s) ≠ no) → f m = .error e
  cut_dead : ∀ m, z ∉ m → (∀ s, z ∉ s → L (m ++ s) = no) → f m = .ok no

namespace Decides

variable {z : α} {e : ε} {no : β} {f : List α → Except ε β} {L L' : List α → β}

theorem dead (hf : ∀ m, f m = .ok no) (hL : ∀ s, L s = no) : Decides z e no f L where
  ended s rest _ := by rw [hf, hL]
  cut_live m _ hlive := by
    obtain ⟨s, _, hs⟩ := hlive
    exact absurd (hL _) hs
  cut_dead m _ _ := hf m

theorem congr (h : Decides z e no f L) (hL : ∀ s, z ∉ s → L s = L' s) : Decides z e no f L' where
  ended s rest hs := by rw [h.ended s rest hs, hL s hs]
  cut_live m hm hlive := by
    obtain ⟨s, hs, hne⟩ := hlive
    refine h.cut_live m hm ⟨s, hs, ?_⟩
    rwa [hL _ (List.not_mem_append hm hs)]
  cut_dead m hm hdead := by
    refine h.cut_dead m hm fun s hs => ?_
    rw [hL _ (List.not_mem_append hm hs), hdead s hs]

theorem derive (h : Decides z e no f L) {c : α} (hc : c ≠ z) :
    Decides z e no (fun m => f (c :: m)) (fun s => L (c :: s)) := by
  have hcons : ∀ {s}, z ∉ s → z ∉ c :: s := fun hs => List.not_mem_cons_of_ne_of_not_mem hc.symm hs
  exact ⟨fun s rest hs => h.ended (c :: s) rest (hcons hs),
    fun m hm => h.cut_live (c :: m) (hcons hm), fun m hm => h.cut_dead (c :: m) (hcons hm)⟩

section

variable (hnil : f [] = .error e) (hend : ∀ m, f (z :: m) = .ok (L []))
  (hlive : ∃ s, z ∉ s ∧ L s ≠ no)

include hnil hend hlive

/-- **The rule for loops**: a character either decides what follows, or the loop goes on with the
rest of the list and changes the result afterwards.

**Proof sketch.** By induction on the list: the first character is the terminator, or what follows
it is decided, or the induction hypothesis applies to the rest. -/
theorem loop
    (hcons : ∀ c ≠ z, Decides z e no (fun m => f (c :: m)) (fun s => L (c :: s)) ∨
      ∃ g : β → β, (∀ b, g b = no ↔ b = no) ∧ (∀ m, f (c :: m) = (f m).map g) ∧
        ∀ s, L (c :: s) = g (L s))
    :
    Decides z e no f L where
  ended s rest := by
    induction s with
    | nil => exact fun _ => hend rest
    | cons c s ih =>
      intro hs
      obtain ⟨hc, hs⟩ := List.ne_and_not_mem_of_not_mem_cons hs
      rcases hcons c hc.symm with h | ⟨g, _, hf, hL⟩
      · exact h.ended s rest hs
      · rw [List.cons_append, hf, ih hs, hL]
        rfl
  cut_live m := by
    induction m with
    | nil => exact fun _ _ => hnil
    | cons c m ih =>
      rintro hm ⟨s, hs, hne⟩
      obtain ⟨hc, hm⟩ := List.ne_and_not_mem_of_not_mem_cons hm
      rcases hcons c hc.symm with h | ⟨g, hg, hf, hL⟩
      · exact h.cut_live m hm ⟨s, hs, hne⟩
      · rw [List.cons_append, hL, Ne, hg] at hne
        rw [hf, ih hm ⟨s, hs, hne⟩]
        rfl
  cut_dead m := by
    induction m with
    | nil =>
      intro _ hdead
      obtain ⟨s, hs, hne⟩ := hlive
      exact absurd (hdead s hs) hne
    | cons c m ih =>
      intro hm hdead
      obtain ⟨hc, hm⟩ := List.ne_and_not_mem_of_not_mem_cons hm
      rcases hcons c hc.symm with h | ⟨g, hg, hf, hL⟩
      · exact h.cut_dead m hm hdead
      · have hrest : ∀ s, z ∉ s → L (m ++ s) = no := by
          intro s hs
          rw [← hg, ← hL]
          exact hdead s hs
        rw [hf, ih hm hrest]
        exact congrArg Except.ok ((hg no).mpr rfl)

/-- **The rule for a character**: every character decides what follows. -/
theorem cons (hcons : ∀ c ≠ z, Decides z e no (fun m => f (c :: m)) (fun s => L (c :: s))) :
    Decides z e no f L :=
  loop hnil hend hlive fun c hc => .inl (hcons c hc)

end

/-- A list with a terminator. -/
theorem eq_ok [DecidableEq α] (h : Decides z e no f L) {m : List α} (hm : z ∈ m) :
    f m = .ok (L (m.takeWhile (· ≠ z))) := by
  obtain ⟨s, rest, rfl, hs⟩ := List.eq_append_cons_of_mem hm
  have hall : ∀ c ∈ s, decide (c ≠ z) = true := by
    intro c hc
    exact decide_eq_true fun heq => hs (heq ▸ hc)
  rw [h.ended s rest hs, List.takeWhile_append_of_pos hall, List.takeWhile_cons_of_neg (by simp),
    List.append_nil]

end Decides

end Terminated
