import Mathlib.Data.List.Lex
import Mathlib.Data.Prod.Lex
import Clink.Verified.Framing
import Clink.Verified.SortedMap
import Clink.Verified.StableOrder

/-!
# The timer service and its checkpoint

The embedding of `include/clink/runtime/timer_service.hpp`.  A timer is a
signed 64-bit timestamp and the bytes of a key; a timer set iterates by the
timestamp first and the key's bytes second, which is its firing order.  The
checkpoint is one blob of both sets.  The clock and the callbacks belong to the
caller: a poll hands back the timers it takes out.
-/

namespace Clink.Ports.Timers

open Clink.Verified

abbrev Key := List UInt8

structure Timer where
  timestampMs : Int64
  key : Key
  deriving DecidableEq

namespace Timer

/-- What the set orders by; keys compare byte by byte, unsigned. -/
def rank (t : Timer) : Lex (Int × List Nat) :=
  toLex (t.timestampMs.toInt, t.key.map UInt8.toNat)

theorem rank_injective : Function.Injective rank := by
  rintro ⟨ts, key⟩ ⟨ts', key'⟩ h
  have hpair : (ts.toInt, key.map UInt8.toNat) = (ts'.toInt, key'.map UInt8.toNat) := h
  obtain ⟨hts, hkey⟩ := Prod.mk.inj hpair
  have hts' : ts = ts' := Int64.toInt_inj.mp hts
  have hkey' : key = key' := List.map_injective_iff.mpr (fun a b => UInt8.toNat_inj.mp) hkey
  rw [hts', hkey']

instance : LinearOrder Timer := LinearOrder.lift' rank rank_injective

end Timer

/-- A timer set. -/
abbrev TimerSet := SortedMap Timer Unit

namespace TimerSet

/-- Nothing happens when the timer is there already. -/
def emplace (s : TimerSet) (t : Timer) : TimerSet := s.upsert t fun _ => ()

theorem mem_emplace {s : TimerSet} {t t' : Timer} :
    t' ∈ (emplace s t).keys ↔ t' = t ∨ t' ∈ s.keys :=
  SortedMap.mem_keys_upsert

theorem ext {s s' : TimerSet} (h : ∀ t, t ∈ s.keys ↔ t ∈ s'.keys) : s = s' := by
  apply SortedMap.ext_find?
  intro t
  have hmem := h t
  rw [SortedMap.mem_keys_iff, SortedMap.mem_keys_iff] at hmem
  cases hfind : s.find? t with
  | none =>
      cases hfind' : s'.find? t with
      | none => rfl
      | some u => simp [hfind, hfind'] at hmem
  | some u =>
      cases hfind' : s'.find? t with
      | none => simp [hfind, hfind'] at hmem
      | some u' => rfl

/-- The timers due at `now`, from the front, and the set without them. -/
def due (s : TimerSet) (now : Int64) : List Timer :=
  s.keys.takeWhile fun t => t.timestampMs.toInt ≤ now.toInt

def afterDue (s : TimerSet) (now : Int64) : TimerSet :=
  ⟨s.entries.dropWhile fun e => e.1.timestampMs.toInt ≤ now.toInt,
    s.sorted.sublist (List.dropWhile_sublist _)⟩

end TimerSet

structure TimerService where
  timers : TimerSet := .empty
  eventTimers : TimerSet := .empty
  /-- The highest watermark the service was polled with. -/
  currentWatermark : Option Int64 := none

namespace TimerService

variable (svc : TimerService)

def registerProcessingTimeTimer (timestampMs : Int64) (key : Key) : TimerService :=
  { svc with timers := TimerSet.emplace svc.timers ⟨timestampMs, key⟩ }

def deleteProcessingTimeTimer (timestampMs : Int64) (key : Key) : TimerService :=
  { svc with timers := svc.timers.erase ⟨timestampMs, key⟩ }

def registerEventTimeTimer (timestampMs : Int64) (key : Key) : TimerService :=
  { svc with eventTimers := TimerSet.emplace svc.eventTimers ⟨timestampMs, key⟩ }

def deleteEventTimeTimer (timestampMs : Int64) (key : Key) : TimerService :=
  { svc with eventTimers := svc.eventTimers.erase ⟨timestampMs, key⟩ }

/-- The timers to fire and the service the callbacks run on. -/
def pollDue (nowMs : Int64) : List Timer × TimerService :=
  (TimerSet.due svc.timers nowMs, { svc with timers := TimerSet.afterDue svc.timers nowMs })

def pollDueEventTime (watermarkTs : Int64) : List Timer × TimerService :=
  let raised := match svc.currentWatermark with
    | none => watermarkTs
    | some wm => if watermarkTs.toInt > wm.toInt then watermarkTs else wm
  (TimerSet.due svc.eventTimers watermarkTs,
    { svc with
      eventTimers := TimerSet.afterDue svc.eventTimers watermarkTs
      currentWatermark := some raised })

def clear : TimerService := { svc with timers := .empty, eventTimers := .empty }

/-! ## The checkpoint blob -/

/-- The low 32 bits, little-endian. -/
def putU32 (v : Nat) : List UInt8 := putLE 4 v

def putI64 (v : Int64) : List UInt8 := putLE 8 v.toUInt64.toNat

def putTimer (t : Timer) : List UInt8 :=
  putI64 t.timestampMs ++ (putU32 t.key.length ++ t.key)

def putSet (s : TimerSet) : List UInt8 := putU32 s.keys.length ++ s.keys.flatMap putTimer

/-- Both sets, the processing-time timers first. -/
def serialize : List UInt8 := putSet svc.timers ++ putSet svc.eventTimers

def getU32 : Reader Nat := Reader.getLE 4

def getI64 : Reader Int64 := (Reader.getLE 8).map fun u => (UInt64.ofNat u).toInt64

/-- Whether a timer is loaded; an empty filter keeps every timer. -/
def keeps (keep : Option (Key → Bool)) (key : Key) : Bool :=
  match keep with
  | none => true
  | some keep => keep key

/-- A timer whose key the filter refuses belongs to another subtask. -/
def keepTimer (keep : Option (Key → Bool)) (s : TimerSet) (t : Timer) : TimerSet :=
  if keeps keep t.key then TimerSet.emplace s t else s

/-- One timer of the blob: its record is read to the end before the filter is
asked. -/
def readTimer (keep : Option (Key → Bool)) (s : TimerSet) : Reader TimerSet :=
  getI64.bind fun ts =>
    getU32.bind fun klen =>
      (Reader.take klen).map fun key => keepTimer keep s ⟨ts, key⟩

def readSet (keep : Option (Key → Bool)) : Reader TimerSet :=
  getU32.bind fun count => Reader.fold (readTimer keep) count .empty

/-- Both sets are read before either is replaced; what stands behind them is not
looked at. -/
def restoreFrom (bytes : List UInt8) (keep : Option (Key → Bool)) : Bool × TimerService :=
  match readSet keep bytes with
  | none => (false, svc)
  | some (proc, rest) =>
      match readSet keep rest with
      | none => (false, svc)
      | some (evt, _) => (true, { svc with timers := proc, eventTimers := evt })

/-! ## Frames of the blob -/

/-- The blob's 32-bit counts and lengths hold these timers. -/
def Fits (s : TimerSet) : Prop := s.keys.length < 2 ^ 32 ∧ ∀ t ∈ s.keys, t.key.length < 2 ^ 32

theorem frames_putU32 {v : Nat} (h : v < 2 ^ 32) : Frames getU32 (putU32 v) v := Frames.getLE h

theorem frames_putI64 (v : Int64) : Frames getI64 (putI64 v) v := by
  have hv : v.toUInt64.toNat < 256 ^ 8 := v.toUInt64.toNat_lt
  have hframe := (Frames.getLE hv).map fun u => (UInt64.ofNat u).toInt64
  have hback : (UInt64.ofNat v.toUInt64.toNat).toInt64 = v := by
    rw [UInt64.ofNat_toNat]
    rfl
  rw [hback] at hframe
  exact hframe

theorem frames_putTimer (keep : Option (Key → Bool)) (s : TimerSet) {t : Timer}
    (h : t.key.length < 2 ^ 32) : Frames (readTimer keep s) (putTimer t) (keepTimer keep s t) := by
  have hkey := (Frames.take t.key).map fun key => keepTimer keep s ⟨t.timestampMs, key⟩
  exact (frames_putI64 t.timestampMs).bind ((frames_putU32 h).bind hkey)

/-- What the restoring loop makes of a set. -/
def kept (keep : Option (Key → Bool)) (s : TimerSet) : TimerSet :=
  s.keys.foldl (keepTimer keep) .empty

theorem frames_putSet (keep : Option (Key → Bool)) {s : TimerSet} (h : Fits s) :
    Frames (readSet keep) (putSet s) (kept keep s) :=
  (frames_putU32 h.1).bind
    (Frames.fold (fun acc t ht => frames_putTimer keep acc (h.2 t ht)) .empty)

theorem mem_foldl_keepTimer (keep : Option (Key → Bool)) (l : List Timer) (s : TimerSet)
    (t : Timer) :
    t ∈ (l.foldl (keepTimer keep) s).keys ↔ t ∈ s.keys ∨ t ∈ l ∧ keeps keep t.key = true := by
  induction l generalizing s with
  | nil => simp
  | cons t' rest ih =>
      rw [List.foldl_cons, ih]
      unfold keepTimer
      by_cases hkeep : keeps keep t'.key = true
      · rw [if_pos hkeep, TimerSet.mem_emplace, List.mem_cons]
        by_cases heq : t = t'
        · simp [heq, hkeep]
        · simp [heq]
      · rw [if_neg hkeep, List.mem_cons]
        by_cases heq : t = t'
        · simp [heq, hkeep]
        · simp [heq]

theorem mem_kept {keep : Option (Key → Bool)} {s : TimerSet} {t : Timer} :
    t ∈ (kept keep s).keys ↔ t ∈ s.keys ∧ keeps keep t.key = true := by
  unfold kept
  rw [mem_foldl_keepTimer]
  have hempty : t ∉ (SortedMap.empty : TimerSet).keys := List.not_mem_nil
  simp [hempty]

theorem kept_none (s : TimerSet) : kept none s = s := by
  apply TimerSet.ext
  intro t
  rw [mem_kept]
  simp [keeps]

/-! ## Restoring -/

section

variable {svc} {src : TimerService} (htimers : Fits src.timers) (hevents : Fits src.eventTimers)

include htimers hevents

theorem restoreFrom_serialize (keep : Option (Key → Bool)) :
    svc.restoreFrom src.serialize keep =
      (true,
        { svc with timers := kept keep src.timers, eventTimers := kept keep src.eventTimers }) := by
  have hevt := (frames_putSet keep hevents).reads []
  rw [List.append_nil] at hevt
  unfold restoreFrom serialize
  rw [(frames_putSet keep htimers).reads]
  simp only [hevt]

theorem restoreFrom_cut (keep : Option (Key → Bool)) {cut : List UInt8}
    (hcut : cut <+: src.serialize) (hne : cut ≠ src.serialize) :
    svc.restoreFrom cut keep = (false, svc) := by
  have hlen : cut.length < src.serialize.length := by
    refine lt_of_le_of_ne hcut.length_le ?_
    intro heq
    exact hne (hcut.eq_of_length heq)
  have hboth := (frames_putSet keep htimers).bind
    (f := fun _ => readSet keep) (frames_putSet keep hevents)
  have hnone := hboth.rejects cut hcut hlen
  unfold Reader.bind at hnone
  unfold restoreFrom
  cases hproc : readSet keep cut with
  | none => rfl
  | some read =>
      rw [hproc] at hnone
      simp only [hnone]

end

/-- A checkpoint gives back the timers, a cut checkpoint changes nothing, and
subtasks that share the keys out share the timers out. -/
theorem restore_serialize (src : TimerService) (htimers : Fits src.timers)
    (hevents : Fits src.eventTimers) :
    (∀ svc : TimerService, svc.restoreFrom src.serialize none =
      (true, { svc with timers := src.timers, eventTimers := src.eventTimers })) ∧
    (∀ (svc : TimerService) (keep : Option (Key → Bool)) (cut : List UInt8),
      cut <+: src.serialize → cut ≠ src.serialize → svc.restoreFrom cut keep = (false, svc)) ∧
    (∀ (ι : Type) (keep : ι → Key → Bool) (svc : ι → TimerService),
      (∀ key, ∃! i, keep i key = true) →
      (∀ i, ((svc i).restoreFrom src.serialize (some (keep i))).1 = true) ∧
      (∀ i j, i ≠ j → ∀ t,
        (t ∈ ((svc i).restoreFrom src.serialize (some (keep i))).2.timers.keys →
          t ∉ ((svc j).restoreFrom src.serialize (some (keep j))).2.timers.keys) ∧
        (t ∈ ((svc i).restoreFrom src.serialize (some (keep i))).2.eventTimers.keys →
          t ∉ ((svc j).restoreFrom src.serialize (some (keep j))).2.eventTimers.keys)) ∧
      (∀ t,
        (t ∈ src.timers.keys ↔
          ∃ i, t ∈ ((svc i).restoreFrom src.serialize (some (keep i))).2.timers.keys) ∧
        (t ∈ src.eventTimers.keys ↔
          ∃ i, t ∈ ((svc i).restoreFrom src.serialize (some (keep i))).2.eventTimers.keys))) := by
  refine ⟨?_, ?_, ?_⟩
  · intro svc
    rw [restoreFrom_serialize htimers hevents, kept_none, kept_none]
  · intro svc keep cut hcut hne
    exact restoreFrom_cut htimers hevents keep hcut hne
  · intro ι keep svc hshare
    have hapart : ∀ (s : TimerSet) (i j : ι), i ≠ j → ∀ t, t ∈ (kept (some (keep i)) s).keys →
        t ∉ (kept (some (keep j)) s).keys := by
      intro s i j hij t hi hj
      exact hij ((hshare t.key).unique (mem_kept.mp hi).2 (mem_kept.mp hj).2)
    have hunion : ∀ (s : TimerSet) (t : Timer),
        t ∈ s.keys ↔ ∃ i, t ∈ (kept (some (keep i)) s).keys := by
      intro s t
      obtain ⟨i, hi, -⟩ := hshare t.key
      constructor
      · intro ht
        exact ⟨i, mem_kept.mpr ⟨ht, hi⟩⟩
      · rintro ⟨j, hj⟩
        exact (mem_kept.mp hj).1
    simp only [restoreFrom_serialize htimers hevents]
    refine ⟨fun _ => trivial, ?_, ?_⟩
    · intro i j hij t
      exact ⟨hapart _ i j hij t, hapart _ i j hij t⟩
    · intro t
      exact ⟨hunion _ t, hunion _ t⟩

/-- Two processing-time timers, one before the epoch, and an event-time timer
without a key. -/
def sampleService : TimerService :=
  ((({} : TimerService).registerProcessingTimeTimer 7 [1, 2]).registerProcessingTimeTimer
    (-3) [255]).registerEventTimeTimer 9 []

theorem restore_serialize_sampleService :
    (({} : TimerService).restoreFrom sampleService.serialize none = (true, sampleService)) ∧
      ({} : TimerService).restoreFrom (sampleService.serialize.take 40) none = (false, {}) := by
  have htimers : Fits sampleService.timers := by
    refine ⟨by decide, ?_⟩
    decide
  have hevents : Fits sampleService.eventTimers := by
    refine ⟨by decide, ?_⟩
    decide
  obtain ⟨hwhole, hcut, -⟩ := restore_serialize sampleService htimers hevents
  exact ⟨hwhole {}, hcut {} none _ (List.take_prefix _ _) (by decide)⟩

/-! ## What fires, and when -/

/-- A call on the timers of event or processing time.  What a callback calls comes after
the poll that runs it. -/
inductive Call where
  | register (eventTime : Bool) (t : Timer)
  | delete (eventTime : Bool) (t : Timer)
  | poll (eventTime : Bool) (now : Int64)
  | clear

def poll (svc : TimerService) (eventTime : Bool) (now : Int64) : List Timer × TimerService :=
  if eventTime then svc.pollDueEventTime now else svc.pollDue now

def call (svc : TimerService) : Call → TimerService
  | .register true t => svc.registerEventTimeTimer t.timestampMs t.key
  | .register false t => svc.registerProcessingTimeTimer t.timestampMs t.key
  | .delete true t => svc.deleteEventTimeTimer t.timestampMs t.key
  | .delete false t => svc.deleteProcessingTimeTimer t.timestampMs t.key
  | .poll eventTime now => (svc.poll eventTime now).2
  | .clear => svc.clear

/-- The call registers the timer, deletes it or is late enough for it to fire. -/
def Call.concerns (eventTime : Bool) (t : Timer) : Call → Bool
  | .register ev t' | .delete ev t' => ev = eventTime ∧ t' = t
  | .poll ev now => ev = eventTime ∧ t.timestampMs.toInt ≤ now.toInt
  | .clear => true

/-- The last call that concerns the timer registered it. -/
def Pending (calls : List Call) (eventTime : Bool) (t : Timer) : Prop :=
  calls.reverse.find? (Call.concerns eventTime t) = some (.register eventTime t)

def timersOf (svc : TimerService) (eventTime : Bool) : TimerSet :=
  if eventTime then svc.eventTimers else svc.timers

theorem ordered_keys (s : TimerSet) : Ordered (fun t : Timer => t.timestampMs.toInt) s.keys := by
  refine (List.pairwise_map.mpr s.sorted).imp fun {t t'} hlt => ?_
  rcases Prod.Lex.toLex_lt_toLex.mp (show t.rank < t'.rank from hlt) with hearlier | ⟨hsame, -⟩
  · exact hearlier.le
  · exact hsame.le

theorem keys_afterDue (s : TimerSet) (now : Int64) :
    (TimerSet.afterDue s now).keys = s.keys.filter fun t => now.toInt < t.timestampMs.toInt := by
  rw [← dropWhile_eq_filter (ordered_keys s), SortedMap.keys, SortedMap.keys, List.dropWhile_map]
  rfl

theorem mem_timersOf_call (svc : TimerService) (c : Call) (eventTime : Bool) (t : Timer) :
    t ∈ ((svc.call c).timersOf eventTime).keys ↔
      if c.concerns eventTime t then c = .register eventTime t
      else t ∈ (svc.timersOf eventTime).keys := by
  have hnone : (SortedMap.empty : TimerSet).keys = [] := rfl
  cases eventTime <;> rcases c with ⟨_ | _, ts, key⟩ | ⟨_ | _, ts, key⟩ | ⟨_ | _, now⟩ | _ <;>
    simp [call, timersOf, poll, registerEventTimeTimer, registerProcessingTimeTimer,
      deleteEventTimeTimer, deleteProcessingTimeTimer, pollDue, pollDueEventTime, clear, hnone,
      TimerSet.mem_emplace, SortedMap.mem_keys_erase, keys_afterDue, Call.concerns] <;> grind

/-- After any calls a poll fires the due timers that were registered and have neither fired
nor been deleted since, each once, by timestamp and then by key. -/
theorem poll_fires_pending (calls : List Call) (eventTime : Bool) (now : Int64) :
    let fired := ((calls.foldl call {}).poll eventTime now).1
    (∀ t, t ∈ fired ↔ Pending calls eventTime t ∧ t.timestampMs.toInt ≤ now.toInt) ∧
      fired.Pairwise (· < ·) := by
  have hheld : ∀ t, t ∈ ((calls.foldl call {}).timersOf eventTime).keys ↔
      Pending calls eventTime t := by
    intro t
    induction calls using List.reverseRecOn with
    | nil => cases eventTime <;> simp [timersOf, Pending, SortedMap.keys]
    | append_singleton calls c ih =>
        rw [List.foldl_append, List.foldl_cons, List.foldl_nil, mem_timersOf_call, ih, Pending,
          Pending, List.reverse_concat, List.find?_cons]
        cases c.concerns eventTime t <;> simp
  have hfires : ((calls.foldl call {}).poll eventTime now).1 =
      TimerSet.due ((calls.foldl call {}).timersOf eventTime) now := by
    cases eventTime <;> rfl
  rw [hfires, TimerSet.due, takeWhile_eq_filter (ordered_keys _)]
  refine ⟨fun t => ?_, (List.pairwise_map.mpr (SortedMap.sorted _)).filter _⟩
  rw [List.mem_filter, hheld, decide_eq_true_iff]

end TimerService

end Clink.Ports.Timers
