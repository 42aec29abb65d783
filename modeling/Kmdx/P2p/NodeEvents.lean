import Kmdx.Lib.Grouped
import Mathlib.Data.List.AList
import Mathlib.Data.List.Count

/-!
# Events of the node table (`libp2p/NodeTable.h`)

The ids are in a list and the events in a map; `processEvents` removes ids that equal their neighbours (`unique` of
`std::list`), so that an id is told twice if another one was in between.
-/

namespace Kmdx.P2p

open Groups List

inductive NodeTableEventType
  | nodeEntryAdded
  | nodeEntryDropped
deriving DecidableEq

structure NodeTableEventHandler (K : Type) [DecidableEq K] where
  nodeEventHandler : List K := []
  events : AList (fun _ : K => NodeTableEventType) := ∅

/-- A call, of the node table or of the host -/
inductive EventCall (K : Type)
  | appendEvent (n : K) (e : NodeTableEventType)
  | processEvents

variable {K : Type} [DecidableEq K]

namespace NodeTableEventHandler

def appendEvent (s : NodeTableEventHandler K) (n : K) (e : NodeTableEventType) : NodeTableEventHandler K :=
  { nodeEventHandler := s.nodeEventHandler ++ [n], events := s.events.insert n e }

/-- What is told, in order, and what stays. -/
def processEvents (s : NodeTableEventHandler K) : List (K × NodeTableEventType) × NodeTableEventHandler K :=
  if s.nodeEventHandler.isEmpty then ([], s)
  -- the map gives the first event there is for an id that it does not have
  else ((s.nodeEventHandler.destutter (· ≠ ·)).map fun n => (n, (s.events.lookup n).getD .nodeEntryAdded), {})

def call (s : NodeTableEventHandler K) : EventCall K → NodeTableEventHandler K
  | .appendEvent n e => s.appendEvent n e
  | .processEvents => s.processEvents.2

/-- The handler after the calls. -/
def after (calls : List (EventCall K)) : NodeTableEventHandler K := calls.foldl call {}

end NodeTableEventHandler

/-- What was appended since `processEvents` was last called. -/
def appendedSince (calls : List (EventCall K)) : List (K × NodeTableEventType) :=
  calls.foldl (fun l c => match c with
    | .appendEvent n e => l ++ [(n, e)]
    | .processEvents => []) []

/-- The events of `n` -/
def eventsOf (n : K) (l : List (K × NodeTableEventType)) : List NodeTableEventType :=
  (l.filter (·.1 = n)).map Prod.snd

/-- Of each id exactly the last event that was appended. -/
def Coalesced (appended told : List (K × NodeTableEventType)) : Prop :=
  ∀ n, eventsOf n told = (eventsOf n appended).getLast?.toList

/-! ### What the handler holds -/

section
variable {n m : K} {e : NodeTableEventType} {l : List (K × NodeTableEventType)}

@[simp] theorem eventsOf_nil : eventsOf n [] = [] := rfl

@[simp] theorem eventsOf_append {l' : List (K × NodeTableEventType)} :
    eventsOf n (l ++ l') = eventsOf n l ++ eventsOf n l' := by
  simp [eventsOf]

theorem eventsOf_self : eventsOf n [(n, e)] = [e] := by simp [eventsOf]

theorem eventsOf_of_ne (h : n ≠ m) : eventsOf m [(n, e)] = [] := by simp [eventsOf, h]

theorem eventsOf_eq_nil_iff : eventsOf n l = [] ↔ n ∉ l.map Prod.fst := by
  rw [eventsOf, map_eq_nil_iff, filter_eq_nil_iff]
  simp only [decide_eq_true_eq, mem_map, not_exists, not_and]

theorem eventsOf_map {ids : List K} {f : K → NodeTableEventType} :
    eventsOf n (ids.map fun m => (m, f m)) = List.replicate (ids.count n) (f n) := by
  induction ids with
  | nil => rfl
  | cons m ids ih =>
    rw [map_cons, ← singleton_append, eventsOf_append, ih]
    by_cases h : m = n
    · rw [h, eventsOf_self, count_cons_self, replicate_succ, singleton_append]
    · rw [eventsOf_of_ne h, count_cons_of_ne h, nil_append]

/-- The list has the ids of what was appended and the map the last event of each. -/
structure Tells (s : NodeTableEventHandler K) (l : List (K × NodeTableEventType)) : Prop where
  ids : s.nodeEventHandler = l.map Prod.fst
  events : ∀ n, s.events.lookup n = (eventsOf n l).getLast?

namespace Tells
variable {s : NodeTableEventHandler K}

theorem start : Tells ({} : NodeTableEventHandler K) [] := ⟨rfl, fun _ => rfl⟩

theorem appendEvent (h : Tells s l) : Tells (s.appendEvent n e) (l ++ [(n, e)]) := by
  refine ⟨?_, fun m => ?_⟩
  · simp [NodeTableEventHandler.appendEvent, h.ids]
  · show (s.events.insert n e).lookup m = _
    rw [eventsOf_append]
    by_cases hm : n = m
    · rw [← hm, AList.lookup_insert, eventsOf_self, List.getLast?_concat]
    · rw [AList.lookup_insert_ne (Ne.symm hm), h.events, eventsOf_of_ne hm, append_nil]

theorem processEvents (h : Tells s l) : Tells s.processEvents.2 [] := by
  unfold NodeTableEventHandler.processEvents
  split
  · rename_i hids
    rw [h.ids, List.isEmpty_iff, map_eq_nil_iff] at hids
    exact hids ▸ h
  · exact start

/-- What is told: each id that stands apart from its like, with its last event. -/
theorem told (h : Tells s l) : s.processEvents.1 =
    ((l.map Prod.fst).destutter (· ≠ ·)).map fun n => (n, ((eventsOf n l).getLast?).getD .nodeEntryAdded) := by
  unfold NodeTableEventHandler.processEvents
  split
  · rename_i hids
    rw [h.ids, List.isEmpty_iff] at hids
    rw [hids]
    rfl
  · simp only [h.ids, h.events]

theorem coalesced_iff (h : Tells s l) : Coalesced l s.processEvents.1 ↔ Grouped (l.map Prod.fst) := by
  rw [← nodup_destutter_iff, nodup_iff_count_eq_one, Coalesced, h.told]
  refine forall_congr' fun n => ?_
  rw [eventsOf_map, mem_destutter_ne]
  by_cases hn : n ∈ l.map Prod.fst
  · obtain ⟨e, he⟩ := Option.ne_none_iff_exists'.1 (mt List.getLast?_eq_none_iff.1 (mt eventsOf_eq_nil_iff.1 (not_not.2 hn)))
    rw [he, Option.toList_some, Option.getD_some, ← replicate_one, replicate_inj]
    simp [hn]
  · rw [eventsOf_eq_nil_iff.2 hn, count_eq_zero.2 (mt mem_destutter_ne.1 hn)]
    simp [hn]

end Tells

theorem tells_after (calls : List (EventCall K)) : Tells (NodeTableEventHandler.after calls) (appendedSince calls) := by
  induction calls using List.reverseRecOn with
  | nil => exact Tells.start
  | append_singleton calls c ih =>
    rw [NodeTableEventHandler.after, appendedSince, foldl_append, foldl_append]
    cases c with
    | appendEvent n e => exact ih.appendEvent
    | processEvents => exact ih.processEvents

end

/-- Whatever the calls before it, `processEvents` tells of each id the last event alone exactly if the events of an id
were appended one right after another. -/
theorem processEvents_coalesced_iff (calls : List (EventCall K)) :
    Coalesced (appendedSince calls) (NodeTableEventHandler.after calls).processEvents.1 ↔
      Grouped ((appendedSince calls).map Prod.fst) :=
  (tells_after calls).coalesced_iff

/-- Added, another one added, and dropped: told twice that it was dropped. -/
theorem not_coalesced : ¬ Coalesced (K := Nat)
    (appendedSince [.appendEvent 1 .nodeEntryAdded, .appendEvent 2 .nodeEntryAdded, .appendEvent 1 .nodeEntryDropped])
    (NodeTableEventHandler.after [.appendEvent 1 .nodeEntryAdded, .appendEvent 2 .nodeEntryAdded,
      .appendEvent 1 .nodeEntryDropped]).processEvents.1 :=
  fun h => absurd (h 1) (by decide)

end Kmdx.P2p
