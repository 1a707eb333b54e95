import Mathlib.Order.Defs.Unbundled
import Mathlib.Data.List.Basic

/-!
# Journals and crashes

A journal is a list of entries that only grows, and a first part of it that is on disk.  A crash
leaves some first part of the entries, with at least those on disk.  Replaying what is left gives a
state between that of the entries on disk and that of all entries.
-/

namespace MerlionTsdb

variable {α σ : Type}

/-- Entries in the order they were logged, and those that no crash takes away. -/
@[ext] structure Journal (α : Type) where
  logged : List α
  synced : List α
  synced_le : synced <+: logged

namespace Journal

/-- A journal all of which is on disk. -/
def ofSynced (entries : List α) : Journal α := ⟨entries, entries, List.prefix_rfl⟩

def append (j : Journal α) (a : α) : Journal α :=
  ⟨j.logged ++ [a], j.synced, j.synced_le.trans (List.prefix_append _ _)⟩

def sync (j : Journal α) : Journal α := ofSynced j.logged

/-- What a crash may leave of the journal. -/
structure Leaves (j : Journal α) (entries : List α) : Prop where
  keeps : j.synced <+: entries
  invents_nothing : entries <+: j.logged

/-- Of two journals with the same entries, more is left of the one with more on disk. -/
theorem Leaves.mono {j j' : Journal α} {entries : List α} (h : j'.Leaves entries)
    (hsynced : j.synced <+: j'.synced) (hlogged : j'.logged <+: j.logged) : j.Leaves entries where
  keeps := hsynced.trans h.keeps
  invents_nothing := h.invents_nothing.trans hlogged

/-! ## Replay -/

/-- The entries one after the other, until one is refused. -/
def replay (step : α → σ → Option σ) : List α → σ → Option σ
  | [], s => some s
  | a :: as, s => (step a s).bind (replay step as)

variable {step : α → σ → Option σ}

theorem replay_append (as bs : List α) (s : σ) :
    replay step (as ++ bs) s = (replay step as s).bind (replay step bs) := by
  induction as generalizing s with
  | nil => rfl
  | cons a as ih =>
    rw [List.cons_append, replay, replay, Option.bind_assoc]
    congr 1
    funext s'
    exact ih s'

/-- A replay moves along what every entry moves along. -/
theorem replay_le {r : σ → σ → Prop} [Std.Refl r] [IsTrans σ r]
    (hstep : ∀ a s s', step a s = some s' → r s s') {as : List α} {s s' : σ}
    (h : replay step as s = some s') : r s s' := by
  induction as generalizing s with
  | nil =>
    cases h
    exact refl_of r _
  | cons a as ih =>
    rw [replay] at h
    obtain ⟨s₁, hfirst, hrest⟩ := Option.bind_eq_some_iff.mp h
    exact trans_of r (hstep a s s₁ hfirst) (ih hrest)

/-- A first part of what replays does so, too, and the state is one on the way. -/
theorem replay_of_isPrefix {r : σ → σ → Prop} [Std.Refl r] [IsTrans σ r]
    (hstep : ∀ a s s', step a s = some s' → r s s') {as bs : List α} (hle : as <+: bs) {s s' : σ}
    (h : replay step bs s = some s') : ∃ s₁, replay step as s = some s₁ ∧ r s₁ s' := by
  obtain ⟨more, rfl⟩ := hle
  rw [replay_append] at h
  obtain ⟨s₁, hfirst, hrest⟩ := Option.bind_eq_some_iff.mp h
  exact ⟨s₁, hfirst, replay_le hstep hrest⟩

/-- What a crash leaves replays, to a state between those of the synced and of all entries. -/
theorem Leaves.replay {r : σ → σ → Prop} [Std.Refl r] [IsTrans σ r]
    (hstep : ∀ a s s', step a s = some s' → r s s') {j : Journal α} {entries : List α}
    (h : j.Leaves entries) {s last : σ} (hlogged : replay step j.logged s = some last) :
    ∃ mid, Journal.replay step entries s = some mid ∧ r mid last ∧
      ∀ {first}, Journal.replay step j.synced s = some first → r first mid := by
  obtain ⟨mid, hmid, hle⟩ := replay_of_isPrefix hstep h.invents_nothing hlogged
  refine ⟨mid, hmid, hle, ?_⟩
  intro first hfirst
  obtain ⟨first', hfirst', hle'⟩ := replay_of_isPrefix hstep h.keeps hmid
  rw [hfirst] at hfirst'
  cases hfirst'
  exact hle'

end Journal
end MerlionTsdb
