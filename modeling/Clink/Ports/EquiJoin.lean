import Clink.Verified.Buckets
import Clink.Verified.Changelog
import Clink.Ports.LiveRows

/-!
# The changelog equi-join

The embedding of `EquiJoinRowOp` (`src/sql/install.cpp`), retention off: the
in-memory maps, the entry partitions and the asynchronous keyed state.  Each
side keeps its rows by join key, and with a row of a kept side whether its
null-padded row is live.

An emitted row is recorded by the arguments of `build_` (`Parts`); `build` is
the row itself.  The three handlers are compared with `stepKey`, what a record
does to the two lists of its key.
-/

namespace Clink.Ports.EquiJoin

open Clink.Verified
open Clink.Ports.SqlRow

variable {V : Type} [DecidableEq V]

structure EquiJoinRowOp (V : Type) where
  leftKeyColumn : Column
  rightKeyColumn : Column
  leftAlias : Column
  rightAlias : Column
  kind : EquiJoinKind
  leftColumns : List Column
  rightColumns : List Column

structure Entry (V : Type) where
  row : Row V
  /-- A null-padded row is live for this entry. -/
  nullEmitted : Bool := false

/-- The left and the right row an output row is built from. -/
abbrev Parts (V : Type) := Option (Row V) × Option (Row V)

namespace EquiJoinRowOp

variable (op : EquiJoinRowOp V)

/-! ## Keys and output rows -/

/-- `key_of_`; a NULL key is none and never matches. -/
def keyOf (isLeft : Bool) (row : Row V) : Option V :=
  cell row (if isLeft then op.leftKeyColumn else op.rightKeyColumn)

omit [DecidableEq V] in
/-- One side's columns; an empty alias leaves the names as they are. -/
def fill (cols : List Column) (tableAlias : Column) (src : Option (Row V)) (out : Row V) : Row V :=
  cols.foldl (fun out c =>
    assign out (if tableAlias = [] then c else prefixed tableAlias c) (src.bind (cell · c))) out

def build (parts : Parts V) : Row V :=
  fill op.rightColumns op.rightAlias parts.2 (fill op.leftColumns op.leftAlias parts.1 .empty)

omit [DecidableEq V] in
/-- The arguments of `emit_pair_`, this side's row first. -/
def pairOf (isLeft : Bool) (row other : Row V) : Parts V :=
  if isLeft then (some row, some other) else (some other, some row)

omit [DecidableEq V] in
/-- The arguments of `emit_outer_`. -/
def outerOf (presentIsLeft : Bool) (present : Row V) : Parts V :=
  if presentIsLeft then (some present, none) else (none, some present)

/-- Whether an entry is the row a retraction cancels. -/
def entriesMatch (row : Row V) (e : Entry V) : Bool := decide (e.row = row)

/-! ## The loops over the other side's entries -/

omit [DecidableEq V] in
/-- A match withdraws the other row's padding and emits the pair. -/
def matchLoop (otherOuter isLeft : Bool) (row : Row V) :
    List (Entry V) → List (Entry V) × List (Change (Parts V))
  | [] => ([], [])
  | oe :: rest =>
      let (others, out) := matchLoop otherOuter isLeft row rest
      if otherOuter && oe.nullEmitted then
        ({ oe with nullEmitted := false } :: others,
          .delete (outerOf (!isLeft) oe.row) :: .insert (pairOf isLeft row oe.row) :: out)
      else (oe :: others, .insert (pairOf isLeft row oe.row) :: out)

omit [DecidableEq V] in
/-- The other side is unmatched again: pad every row that is not. -/
def padLoop (isLeft : Bool) : List (Entry V) → List (Entry V) × List (Change (Parts V))
  | [] => ([], [])
  | oe :: rest =>
      let (others, out) := padLoop isLeft rest
      if !oe.nullEmitted then
        ({ oe with nullEmitted := true } :: others, .insert (outerOf (!isLeft) oe.row) :: out)
      else (oe :: others, out)

omit [DecidableEq V] in
def deletePairs (isLeft : Bool) (row : Row V) (others : List (Entry V)) :
    List (Change (Parts V)) :=
  others.map fun oe => .delete (pairOf isLeft row oe.row)

/-! ## The in-memory maps -/

structure Sides (V : Type) where
  left : Buckets V (Entry V) := ∅
  right : Buckets V (Entry V) := ∅

omit [DecidableEq V] in
def Sides.side (st : Sides V) (isLeft : Bool) : Buckets V (Entry V) :=
  if isLeft then st.left else st.right

omit [DecidableEq V] in
def Sides.set (st : Sides V) (isLeft : Bool) (m : Buckets V (Entry V)) : Sides V :=
  if isLeft then { st with left := m } else { st with right := m }

/-- A NULL key is not stored: its padded row comes and goes with it. -/
def handleNullKey (r : Record V) : List (Change (Parts V)) :=
  if op.kind.keepsUnmatched r.isLeft then
    [if r.kind.isDeleteLike then .delete (outerOf r.isLeft r.row)
      else .insert (outerOf r.isLeft r.row)]
  else []

/-- Write a walked list back into the map it was found in. -/
def writeBack (m : Buckets V (Entry V)) (key : V) (entries : List (Entry V)) :
    Buckets V (Entry V) :=
  if key ∈ m then m.insert key entries else m

def handleLoaded (st : Sides V) (r : Record V) : Sides V × List (Change (Parts V)) :=
  let thisOuter := op.kind.keepsUnmatched r.isLeft
  let otherOuter := op.kind.keepsUnmatched (!r.isLeft)
  match op.keyOf r.isLeft r.row with
  | none => (st, op.handleNullKey r)
  | some key =>
      let self := st.side r.isLeft
      let other := st.side (!r.isLeft)
      if r.kind.isDeleteLike then
        match self.lookup key with
        | none => (st, [])
        | some vec =>
            match vec.find? (entriesMatch r.row) with
            | none => (st, [])
            | some me =>
                let vec := vec.eraseP (entriesMatch r.row)
                let st := st.set r.isLeft (self.insert key vec)
                if (other.bucket key).isEmpty then
                  (st, if thisOuter && me.nullEmitted then
                    [.delete (outerOf r.isLeft me.row)] else [])
                else
                  let deletes := deletePairs r.isLeft me.row (other.bucket key)
                  if otherOuter && vec.isEmpty then
                    let (others, pads) := padLoop r.isLeft (other.bucket key)
                    (st.set (!r.isLeft) (writeBack other key others), deletes ++ pads)
                  else (st, deletes)
      else
        if (other.bucket key).isEmpty then
          (st.set r.isLeft (self.insert key (self.bucket key ++ [⟨r.row, thisOuter⟩])),
            if thisOuter then [.insert (outerOf r.isLeft r.row)] else [])
        else
          let (others, out) := matchLoop otherOuter r.isLeft r.row (other.bucket key)
          ((st.set r.isLeft (self.insert key (self.bucket key ++ [⟨r.row, false⟩]))).set (!r.isLeft)
            (writeBack other key others), out)

/-! ## The entry partitions -/

/-- The position of the retracted entry is found first; an appended entry
carries its flag from the start. -/
def handleEntries (st : Sides V) (r : Record V) : Sides V × List (Change (Parts V)) :=
  let thisOuter := op.kind.keepsUnmatched r.isLeft
  let otherOuter := op.kind.keepsUnmatched (!r.isLeft)
  match op.keyOf r.isLeft r.row with
  | none => (st, op.handleNullKey r)
  | some key =>
      let self := st.side r.isLeft
      let other := st.side (!r.isLeft)
      let found := other.bucket key
      if r.kind.isDeleteLike then
        match (self.bucket key).findIdx? (entriesMatch r.row) with
        | none => (st, [])
        | some position =>
            match (self.bucket key)[position]? with
            | none => (st, [])
            | some removed =>
                let st := st.set r.isLeft (self.insert key ((self.bucket key).eraseIdx position))
                if found.length = 0 then
                  (st, if thisOuter && removed.nullEmitted then
                    [.delete (outerOf r.isLeft removed.row)] else [])
                else
                  let deletes := deletePairs r.isLeft removed.row found
                  if otherOuter && ((st.side r.isLeft).bucket key).length = 0 then
                    let (others, pads) := padLoop r.isLeft found
                    (st.set (!r.isLeft) (other.insert key others), deletes ++ pads)
                  else (st, deletes)
      else
        let st := st.set r.isLeft
          (self.insert key (self.bucket key ++ [⟨r.row, thisOuter && found.length = 0⟩]))
        if found.length = 0 then
          (st, if thisOuter then [.insert (outerOf r.isLeft r.row)] else [])
        else
          let (others, out) := matchLoop otherOuter r.isLeft r.row found
          (st.set (!r.isLeft) (other.insert key others), out)

/-! ## The keyed state -/

omit [DecidableEq V] in
/-- Whether a loop changed a flag, and its list has to be written. -/
def dirty (before after : List (Entry V)) : Bool :=
  (before.zip after).any fun p => p.1.nullEmitted != p.2.nullEmitted

/-- One task: it reads both lists, and writes the other one only when a flag
changed. -/
def handleAsync (st : Sides V) (r : Record V) : Sides V × List (Change (Parts V)) :=
  let thisOuter := op.kind.keepsUnmatched r.isLeft
  let otherOuter := op.kind.keepsUnmatched (!r.isLeft)
  match op.keyOf r.isLeft r.row with
  | none => (st, op.handleNullKey r)
  | some key =>
      let self := st.side r.isLeft
      let other := st.side (!r.isLeft)
      let selfList := self.bucket key
      let otherList := other.bucket key
      if r.kind.isDeleteLike then
        match selfList.find? (entriesMatch r.row) with
        | none => (st, [])
        | some me =>
            let selfList := selfList.eraseP (entriesMatch r.row)
            if otherList.isEmpty then
              (st.set r.isLeft (self.insert key selfList),
                if thisOuter && me.nullEmitted then [.delete (outerOf r.isLeft me.row)] else [])
            else
              let deletes := deletePairs r.isLeft me.row otherList
              let (others, pads) :=
                if otherOuter && selfList.isEmpty then padLoop r.isLeft otherList
                else (otherList, [])
              let st := st.set r.isLeft (self.insert key selfList)
              (if dirty otherList others then st.set (!r.isLeft) (other.insert key others) else st,
                deletes ++ pads)
      else
        if otherList.isEmpty then
          (st.set r.isLeft (self.insert key (selfList ++ [⟨r.row, thisOuter⟩])),
            if thisOuter then [.insert (outerOf r.isLeft r.row)] else [])
        else
          let (others, out) := matchLoop otherOuter r.isLeft r.row otherList
          let st := st.set r.isLeft (self.insert key (selfList ++ [⟨r.row, false⟩]))
          (if dirty otherList others then st.set (!r.isLeft) (other.insert key others) else st, out)

/-! ## What a record does to the lists of its key -/

/-- The two lists of a key, by side. -/
abbrev Lists (V : Type) := Bool → List (Entry V)

def recordKey (r : Record V) : Option V := op.keyOf r.isLeft r.row

/-- One record on the lists of its key. -/
def stepKey (s : Lists V) (r : Record V) : Lists V × List (Change (Parts V)) :=
  let thisOuter := op.kind.keepsUnmatched r.isLeft
  let otherOuter := op.kind.keepsUnmatched (!r.isLeft)
  match op.recordKey r with
  | none => (s, op.handleNullKey r)
  | some _ =>
      let self := s r.isLeft
      let other := s (!r.isLeft)
      if r.kind.isDeleteLike then
        match self.find? (entriesMatch r.row) with
        | none => (s, [])
        | some me =>
            let self := self.eraseP (entriesMatch r.row)
            let s := Function.update s r.isLeft self
            if other = [] then
              (s, if thisOuter && me.nullEmitted then [.delete (outerOf r.isLeft me.row)] else [])
            else if otherOuter && self.isEmpty then
              (Function.update s (!r.isLeft) (padLoop r.isLeft other).1,
                deletePairs r.isLeft me.row other ++ (padLoop r.isLeft other).2)
            else (s, deletePairs r.isLeft me.row other)
      else if other = [] then
        (Function.update s r.isLeft (self ++ [⟨r.row, thisOuter⟩]),
          if thisOuter then [.insert (outerOf r.isLeft r.row)] else [])
      else
        (Function.update (Function.update s r.isLeft (self ++ [⟨r.row, false⟩])) (!r.isLeft)
          (matchLoop otherOuter r.isLeft r.row other).1,
          (matchLoop otherOuter r.isLeft r.row other).2)

/-- The maps hold the lists of every key. -/
def Holds (st : Sides V) (s : Option V → Lists V) : Prop :=
  ∀ side k, (st.side side).bucket k = s (some k) side

variable {op} {st : Sides V} {s : Option V → Lists V}

omit [DecidableEq V] in
@[simp] theorem Sides.side_set_self (st : Sides V) (isLeft : Bool) (m : Buckets V (Entry V)) :
    (st.set isLeft m).side isLeft = m := by
  cases isLeft <;> rfl

omit [DecidableEq V] in
@[simp] theorem Sides.side_set_not (st : Sides V) (isLeft : Bool) (m : Buckets V (Entry V)) :
    (st.set isLeft m).side (!isLeft) = st.side (!isLeft) := by
  cases isLeft <;> rfl

variable {m : Buckets V (Entry V)} {entries : List (Entry V)}

/-- Writing one list of the key keeps the maps in step. -/
theorem Holds.set (h : Holds st s) (isLeft : Bool) {key : V}
    (hm : ∀ k, m.bucket k = if k = key then entries else (st.side isLeft).bucket k) :
    Holds (st.set isLeft m)
      (Function.update s (some key) (Function.update (s (some key)) isLeft entries)) := by
  intro side k
  by_cases hk : k = key
  · subst hk
    rw [Function.update_self]
    by_cases hside : side = isLeft
    · subst hside
      rw [Sides.side_set_self, hm, if_pos rfl, Function.update_self]
    · obtain rfl : side = !isLeft := by
        cases side <;> cases isLeft <;> simp_all
      rw [Sides.side_set_not, Function.update_of_ne hside]
      exact h (!isLeft) k
  · rw [Function.update_of_ne (by simpa using hk)]
    by_cases hside : side = isLeft
    · subst hside
      rw [Sides.side_set_self, hm, if_neg hk]
      exact h side k
    · obtain rfl : side = !isLeft := by
        cases side <;> cases isLeft <;> simp_all
      rw [Sides.side_set_not]
      exact h (!isLeft) k

/-- The same, where the source writes only into a list it found. -/
theorem bucket_writeBack {key : V} (hfound : m.bucket key ≠ []) (k : V) :
    (writeBack m key entries).bucket k = if k = key then entries else m.bucket k := by
  have hmem : key ∈ m := by
    by_contra hnot
    apply hfound
    rw [Buckets.bucket, AList.lookup_eq_none.mpr hnot]
    rfl
  rw [writeBack, if_pos hmem, Buckets.bucket_insert]

omit [DecidableEq V] in
theorem rows_matchLoop (otherOuter isLeft : Bool) (row : Row V) (others : List (Entry V)) :
    (matchLoop otherOuter isLeft row others).1.map Entry.row = others.map Entry.row := by
  induction others with
  | nil => rfl
  | cons oe rest ih =>
      rw [matchLoop]
      by_cases h : (otherOuter && oe.nullEmitted) = true
      · simp [h, ih]
      · simp [h, ih]

omit [DecidableEq V] in
theorem rows_padLoop (isLeft : Bool) (others : List (Entry V)) :
    (padLoop isLeft others).1.map Entry.row = others.map Entry.row := by
  induction others with
  | nil => rfl
  | cons oe rest ih =>
      rw [padLoop]
      by_cases h : (!oe.nullEmitted) = true
      · simp [h, ih]
      · simp [h, ih]

omit [DecidableEq V] in
/-- A loop that changed no flag changed nothing. -/
theorem eq_of_not_dirty {before after : List (Entry V)}
    (hrows : after.map Entry.row = before.map Entry.row) (h : dirty before after = false) :
    after = before := by
  induction before generalizing after with
  | nil => simpa using hrows
  | cons b before ih =>
      cases after with
      | nil => simp at hrows
      | cons a after =>
          obtain ⟨hrow, hrest⟩ := List.cons.inj hrows
          rw [dirty, List.zip_cons_cons, List.any_cons, Bool.or_eq_false_iff] at h
          obtain ⟨hflag, hmore⟩ := h
          have hflag : b.nullEmitted = a.nullEmitted := by simpa using hflag
          rw [ih hrest hmore]
          congr 1
          cases a
          cases b
          simp_all

omit [DecidableEq V] in
private theorem dirty_self (entries : List (Entry V)) : dirty entries entries = false := by
  induction entries with
  | nil => rfl
  | cons e rest ih =>
      rw [dirty, List.zip_cons_cons, List.any_cons, bne_self_eq_false, Bool.false_or]
      exact ih

/-- Both lists of the key written, this side's first. -/
theorem Holds.set_both (h : Holds st s) {isLeft : Bool} {key : V} {self other : List (Entry V)}
    (hm : ∀ k, m.bucket k = if k = key then other else (st.side (!isLeft)).bucket k) :
    Holds ((st.set isLeft ((st.side isLeft).insert key self)).set (!isLeft) m)
      (Function.update s (some key)
        (Function.update (Function.update (s (some key)) isLeft self) (!isLeft) other)) := by
  have hset := h.set isLeft (Buckets.bucket_insert (st.side isLeft) key · self)
  have hm' : ∀ k, m.bucket k = if k = key then other else
      ((st.set isLeft ((st.side isLeft).insert key self)).side (!isLeft)).bucket k := by
    intro k
    rw [Sides.side_set_not]
    exact hm k
  have hboth := hset.set (!isLeft) hm'
  rw [Function.update_self, Function.update_idem] at hboth
  exact hboth

/-- The same, where the other list is written only when a flag changed. -/
theorem Holds.set_dirty (h : Holds st s) {isLeft : Bool} {key : V}
    {self others : List (Entry V)}
    (hrows : others.map Entry.row = (s (some key) (!isLeft)).map Entry.row) :
    Holds (if dirty (s (some key) (!isLeft)) others then
        (st.set isLeft ((st.side isLeft).insert key self)).set (!isLeft)
          ((st.side (!isLeft)).insert key others)
      else st.set isLeft ((st.side isLeft).insert key self))
      (Function.update s (some key)
        (Function.update (Function.update (s (some key)) isLeft self) (!isLeft) others)) := by
  by_cases hdirty : dirty (s (some key) (!isLeft)) others = true
  · rw [if_pos hdirty]
    exact h.set_both (Buckets.bucket_insert _ key · others)
  · have hothers := eq_of_not_dirty hrows (by simpa using hdirty)
    have hne : (!isLeft) ≠ isLeft := by cases isLeft <;> decide
    have hsame : Function.update (Function.update (s (some key)) isLeft self) (!isLeft)
        (s (some key) (!isLeft)) = Function.update (s (some key)) isLeft self := by
      rw [Function.update_eq_self_iff, Function.update_of_ne hne]
    rw [if_neg hdirty, hothers, hsame]
    exact h.set isLeft (Buckets.bucket_insert (st.side isLeft) key · self)

/-- A path follows the lists of the keys. -/
def Follows (op : EquiJoinRowOp V)
    (handle : Sides V → Record V → Sides V × List (Change (Parts V))) : Prop :=
  ∀ st s r, Holds st s → Holds (handle st r).1 (atKey op.recordKey op.stepKey s r).1 ∧
    (handle st r).2 = (atKey op.recordKey op.stepKey s r).2

theorem follows_nullKey {r : Record V} (h : Holds st s) (hkey : op.recordKey r = none) :
    Holds st (atKey op.recordKey op.stepKey s r).1 ∧
      op.handleNullKey r = (atKey op.recordKey op.stepKey s r).2 := by
  simp only [atKey, stepKey, hkey, Function.update_eq_self]
  exact ⟨h, trivial⟩

theorem follows_handleLoaded (op : EquiJoinRowOp V) : op.Follows op.handleLoaded := by
  intro st s r h
  cases hkey : op.keyOf r.isLeft r.row with
  | none =>
      simp only [handleLoaded, hkey]
      exact follows_nullKey h hkey
  | some key =>
      have hrec : op.recordKey r = some key := hkey
      have hself := h r.isLeft key
      have hother := h (!r.isLeft) key
      simp only [handleLoaded, hkey, atKey, stepKey, hrec, hother, List.isEmpty_iff]
      by_cases hretract : r.kind.isDeleteLike = true
      · simp only [hretract, if_true]
        cases hlookup : (st.side r.isLeft).lookup key with
        | none =>
            have hnil : s (some key) r.isLeft = [] := by
              rw [← hself, Buckets.bucket, hlookup]
              rfl
            simp only [hnil, List.find?_nil, Function.update_eq_self]
            exact ⟨h, trivial⟩
        | some vec =>
            have hvec : s (some key) r.isLeft = vec := by
              rw [← hself, Buckets.bucket, hlookup]
              rfl
            simp only [hvec]
            cases hfind : vec.find? (entriesMatch r.row) with
            | none =>
                simp only [Function.update_eq_self]
                exact ⟨h, trivial⟩
            | some me =>
                have hset := h.set r.isLeft (Buckets.bucket_insert (st.side r.isLeft)
                  key · (vec.eraseP (entriesMatch r.row)))
                by_cases hnone : s (some key) (!r.isLeft) = []
                · simp only [hnone, if_true]
                  exact ⟨hset, trivial⟩
                · simp only [hnone, if_false]
                  split
                  · exact ⟨h.set_both (bucket_writeBack (hother ▸ hnone)), rfl⟩
                  · exact ⟨hset, rfl⟩
      · simp only [hretract, Bool.false_eq_true, if_false]
        by_cases hnone : s (some key) (!r.isLeft) = []
        · simp only [hnone, if_true, ← hself]
          exact ⟨h.set r.isLeft (Buckets.bucket_insert (st.side r.isLeft) key · _), trivial⟩
        · simp only [hnone, if_false, ← hself]
          exact ⟨h.set_both (bucket_writeBack (hother ▸ hnone)), trivial⟩

omit [DecidableEq V] in
/-- Removing by position is removing the first match. -/
theorem getElem?_findIdx? {p : Entry V → Bool} {i : Nat} (hi : entries.findIdx? p = some i) :
    entries[i]? = entries.find? p ∧ entries.eraseIdx i = entries.eraseP p := by
  rw [List.find?_eq_bind_findIdx?_getElem?, List.eraseP_eq_eraseIdx, hi]
  exact ⟨rfl, rfl⟩

theorem follows_handleEntries (op : EquiJoinRowOp V) : op.Follows op.handleEntries := by
  intro st s r h
  cases hkey : op.keyOf r.isLeft r.row with
  | none =>
      simp only [handleEntries, hkey]
      exact follows_nullKey h hkey
  | some key =>
      have hrec : op.recordKey r = some key := hkey
      have hself := h r.isLeft key
      have hother := h (!r.isLeft) key
      simp only [handleEntries, hkey, atKey, stepKey, hrec, hother, hself, List.length_eq_zero_iff]
      by_cases hretract : r.kind.isDeleteLike = true
      · simp only [hretract, if_true]
        cases hidx : (s (some key) r.isLeft).findIdx? (entriesMatch r.row) with
        | none =>
            have hfind : (s (some key) r.isLeft).find? (entriesMatch r.row) = none := by
              rw [List.find?_eq_bind_findIdx?_getElem?, hidx]
              rfl
            simp only [hfind, Function.update_eq_self]
            exact ⟨h, trivial⟩
        | some position =>
            obtain ⟨hget, herase⟩ := getElem?_findIdx? hidx
            simp only [hget, herase]
            cases hfind : (s (some key) r.isLeft).find? (entriesMatch r.row) with
            | none =>
                simp only [Function.update_eq_self]
                exact ⟨h, trivial⟩
            | some me =>
                have hset := h.set r.isLeft (Buckets.bucket_insert (st.side r.isLeft)
                  key · ((s (some key) r.isLeft).eraseP (entriesMatch r.row)))
                by_cases hnone : s (some key) (!r.isLeft) = []
                · simp only [hnone, if_true]
                  exact ⟨hset, trivial⟩
                · simp only [hnone, if_false, Sides.side_set_self, Buckets.bucket_insert,
                    if_true, List.isEmpty_iff, Bool.and_eq_true, decide_eq_true_iff]
                  split
                  · exact ⟨h.set_both (Buckets.bucket_insert _ key · _), rfl⟩
                  · exact ⟨hset, rfl⟩
      · simp only [hretract, Bool.false_eq_true, if_false]
        by_cases hnone : s (some key) (!r.isLeft) = []
        · simp only [hnone, if_true, decide_true, Bool.and_true]
          exact ⟨h.set r.isLeft (Buckets.bucket_insert (st.side r.isLeft) key · _), trivial⟩
        · simp only [hnone, if_false, decide_false, Bool.and_false]
          exact ⟨h.set_both (Buckets.bucket_insert _ key · _), trivial⟩

theorem follows_handleAsync (op : EquiJoinRowOp V) : op.Follows op.handleAsync := by
  intro st s r h
  cases hkey : op.keyOf r.isLeft r.row with
  | none =>
      simp only [handleAsync, hkey]
      exact follows_nullKey h hkey
  | some key =>
      have hrec : op.recordKey r = some key := hkey
      have hself := h r.isLeft key
      have hother := h (!r.isLeft) key
      simp only [handleAsync, hkey, atKey, stepKey, hrec, hother, hself, List.isEmpty_iff]
      by_cases hretract : r.kind.isDeleteLike = true
      · simp only [hretract, if_true]
        cases hfind : (s (some key) r.isLeft).find? (entriesMatch r.row) with
        | none =>
            simp only [Function.update_eq_self]
            exact ⟨h, trivial⟩
        | some me =>
            have hset := h.set r.isLeft (Buckets.bucket_insert (st.side r.isLeft)
              key · ((s (some key) r.isLeft).eraseP (entriesMatch r.row)))
            by_cases hnone : s (some key) (!r.isLeft) = []
            · simp only [hnone, if_true]
              exact ⟨hset, trivial⟩
            · simp only [hnone, if_false]
              split
              · exact ⟨h.set_dirty (rows_padLoop _ _), rfl⟩
              · simp only [dirty_self, Bool.false_eq_true, if_false, List.append_nil]
                exact ⟨hset, trivial⟩
      · simp only [hretract, Bool.false_eq_true, if_false]
        by_cases hnone : s (some key) (!r.isLeft) = []
        · simp only [hnone, if_true]
          exact ⟨h.set r.isLeft (Buckets.bucket_insert (st.side r.isLeft) key · _), trivial⟩
        · simp only [hnone, if_false]
          exact ⟨h.set_dirty (rows_matchLoop _ _ _ _), trivial⟩

end EquiJoinRowOp

end Clink.Ports.EquiJoin
