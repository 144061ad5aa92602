import M6809.Interrupt
import Mathlib.Data.List.Induction

namespace M6809

/-- What can happen to a latch. -/
inductive LineEvent where
  | asserted (kind : Interrupt)
  | released (kind : Interrupt)
  | entered (kind : Interrupt)
  | reset
deriving DecidableEq, Repr

namespace LineEvent

def apply (latches : Latches) : LineEvent → Latches
  | asserted kind => latches.set kind true
  | released kind | entered kind => latches.set kind false
  | reset => Latches.clear

/-- After the event an earlier assertion of the line is settled. -/
def settles (kind : Interrupt) : LineEvent → Bool
  | asserted _ => false
  | released other | entered other => other == kind
  | reset => true

theorem get_apply (latches : Latches) (e : LineEvent) (kind : Interrupt) :
    (e.apply latches).get kind = true ↔
      e = asserted kind ∨ latches.get kind = true ∧ e.settles kind = false := by
  cases e with
  | asserted other => by_cases h : kind = other <;> simp [apply, settles, h, Ne.symm]
  | released other | entered other =>
      by_cases h : kind = other <;> simp [apply, settles, h, Ne.symm]
  | reset => cases kind <;> simp [apply, settles, Latches.clear, Latches.get]

theorem count_add_toNat_le {latches : Latches} {e : LineEvent} {kind : Interrupt}
    (hentered : e = entered kind → latches.get kind = true) :
    [e].count (entered kind) + ((e.apply latches).get kind).toNat ≤
      [e].count (asserted kind) + (latches.get kind).toNat := by
  cases e with
  | asserted other => by_cases h : kind = other <;> simp [apply, h]
  | released other => by_cases h : kind = other <;> simp [apply, h]
  | entered other =>
      by_cases h : kind = other
      · subst h
        simp [apply, hentered rfl]
      · simp [apply, h, Ne.symm h]
  | reset => cases kind <;> simp [apply, Latches.clear, Latches.get]

end LineEvent

/-- The line was asserted, and nothing since has settled that. -/
def Outstanding (kind : Interrupt) (events : List LineEvent) : Prop :=
  ∃ before after, events = before ++ .asserted kind :: after ∧
    ∀ e ∈ after, e.settles kind = false

section
variable {kind : Interrupt} {events : List LineEvent} {e : LineEvent}

theorem outstanding_concat_iff :
    Outstanding kind (events ++ [e]) ↔
      e = .asserted kind ∨ Outstanding kind events ∧ e.settles kind = false := by
  constructor
  · rintro ⟨before, after, heq, hafter⟩
    rcases List.eq_nil_or_concat after with rfl | ⟨rest, last, rfl⟩
    · obtain ⟨-, hlast⟩ := List.append_inj' heq rfl
      simp only [List.cons.injEq, and_true] at hlast
      exact .inl hlast
    · have hsplit : events ++ [e] = (before ++ .asserted kind :: rest) ++ [last] := by
        simpa using heq
      obtain ⟨rfl, hlast⟩ := List.append_inj' hsplit rfl
      simp only [List.cons.injEq, and_true] at hlast
      subst hlast
      refine .inr ⟨⟨before, rest, rfl, fun e he => hafter e (by simp [he])⟩, hafter e (by simp)⟩
  · rintro (rfl | ⟨⟨before, after, rfl, hafter⟩, he⟩)
    · exact ⟨events, [], rfl, by simp⟩
    · refine ⟨before, after ++ [e], by simp, ?_⟩
      simpa [or_imp, forall_and, he] using hafter

theorem Outstanding.asserted_mem {before between : List LineEvent}
    (h : Outstanding kind (before ++ .entered kind :: between)) : .asserted kind ∈ between := by
  induction between using List.reverseRecOn with
  | nil => simp [outstanding_concat_iff, LineEvent.settles] at h
  | append_singleton rest last ih =>
      rw [← List.cons_append, ← List.append_assoc, outstanding_concat_iff] at h
      rcases h with rfl | ⟨hrest, -⟩
      · simp
      · exact List.mem_append_left _ (ih hrest)

end

/-- What the latches and the events up to now have to do with each other. -/
structure LineInvariant (latches : Latches) (events : List LineEvent) : Prop where
  latched_iff : ∀ kind, latches.get kind = true ↔ Outstanding kind events
  count_le : ∀ kind, events.count (.entered kind) + (latches.get kind).toNat ≤
    events.count (.asserted kind)
  separated : ∀ kind before between after,
    events = before ++ .entered kind :: (between ++ .entered kind :: after) →
      .asserted kind ∈ between

namespace LineInvariant

theorem initial : LineInvariant Latches.clear [] where
  latched_iff kind := by cases kind <;> simp [Latches.clear, Latches.get, Outstanding]
  count_le kind := by cases kind <;> simp [Latches.clear, Latches.get]
  separated kind before between after h := by simp at h

theorem concat {latches : Latches} {events : List LineEvent} {e : LineEvent}
    (h : LineInvariant latches events)
    (hentered : ∀ kind, e = .entered kind → latches.get kind = true) :
    LineInvariant (e.apply latches) (events ++ [e]) where
  latched_iff kind := by rw [LineEvent.get_apply, outstanding_concat_iff, h.latched_iff]
  count_le kind := by
    have hcount := h.count_le kind
    have hevent := LineEvent.count_add_toNat_le (hentered kind)
    rw [List.count_append, List.count_append]
    omega
  separated kind before between after heq := by
    rcases List.eq_nil_or_concat after with rfl | ⟨rest, last, rfl⟩
    · have hsplit : events ++ [e] = (before ++ .entered kind :: between) ++ [.entered kind] := by
        simpa using heq
      obtain ⟨rfl, hlast⟩ := List.append_inj' hsplit rfl
      simp only [List.cons.injEq, and_true] at hlast
      exact ((h.latched_iff kind).mp (hentered kind hlast)).asserted_mem
    · have hsplit : events ++ [e] =
          (before ++ .entered kind :: (between ++ .entered kind :: rest)) ++ [last] := by
        simpa using heq
      exact h.separated kind before between rest (List.append_inj' hsplit rfl).1

end LineInvariant

end M6809
