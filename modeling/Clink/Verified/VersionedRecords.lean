import Clink.Verified.Layouts

/-!
# Records that grew over time

A record is written as a list of parts and read as a list of fields, each of a part.
A reader of a later version checks at the first field of each addition whether the
bytes are at their end, and leaves the addition's fields at their defaults then, so a
record that an earlier version wrote is read too.  Parts are single fields, a list of
items, columns that stand apart from the items they belong to, one value for each, and
fields that are not written at all.

Where the parts written are those read, in order, a record is read back, and one cut
where an addition begins has the fields before the cut and the defaults after it
(`Record.read_cut`).
-/

namespace Clink.Verified.Wire

inductive Part where
  | field (name : String) (layout : Layout)
  /-- Two texts of at most `limit` bytes, which the reader checks after both. -/
  | limited (first second : String) (limit : Nat)
  /-- The items that columns belong to. -/
  | items (name : String) (layout : Layout)
  /-- A row for each item. -/
  | each (layout : Layout)
  /-- A list whose reader stops at the end of the bytes. -/
  | tailList (name : String) (layout : Layout)
  /-- A count and a choice for each item; the reader stops at the end of the bytes. -/
  | tailEach (name : String) (last : Nat)
  /-- A field that is not written. -/
  | unwritten (name : String) (layout : Layout)
  deriving DecidableEq

namespace Part

def Value : Part → Type
  | field _ l | unwritten _ l => l.Value
  | limited _ _ _ => Bytes × Bytes
  | items _ l | each l | tailList _ l => List l.Value
  | tailEach _ last => List (Fin (last + 1))

/-- The default of a field, of a column the default of each item. -/
def Default : Part → Type
  | field _ l | unwritten _ l | each l => l.Value
  | limited _ _ _ | items _ _ | tailList _ _ | tailEach _ _ => Unit

/-- The default of default-constructed fields. -/
def zero : (p : Part) → p.Default
  | field _ l | unwritten _ l | each l => l.zero
  | limited _ _ _ | items _ _ | tailList _ _ | tailEach _ _ => ()

def put : (p : Part) → p.Value → Bytes
  | field _ l, v => l.put v
  | limited _ _ _, (v : Bytes × Bytes) => (Layout.text 0).put v.1 ++ (Layout.text 0).put v.2
  | items _ l, v | tailList _ l, v => (Layout.list l).put v
  | each l, (v : List l.Value) => v.flatMap l.put
  | tailEach _ last, v => (Layout.list (.choice last)).put v
  | unwritten _ _, _ => []

/-- The value where the bytes have ended, in a record of so many items. -/
def absent : (p : Part) → p.Default → Nat → p.Value
  | field _ _, d, _ | unwritten _ _, d, _ => d
  | limited _ _ _, _, _ => (([], []) : Bytes × Bytes)
  | items _ l, _, _ | tailList _ l, _, _ => ([] : List l.Value)
  | each l, d, n => List.replicate n (d : l.Value)
  | tailEach _ last, _, n => List.replicate n (Layout.toChoice last 0)

/-- The items past those read keep the first choice. -/
def fill {last : Nat} (n : Nat) (vs : List (Fin (last + 1))) : List (Fin (last + 1)) :=
  vs ++ List.replicate (n - vs.length) (Layout.toChoice last 0)

def read : (p : Part) → p.Default → Nat → Reader p.Value
  | field _ l, _, _ => l.read
  | limited first second limit, _, _ => do
      let a ← Reader.text 0
      let b ← Reader.text 0
      if limit < a.length then Reader.throw (.tooLong first a.length limit)
      else if limit < b.length then Reader.throw (.tooLong second b.length limit)
      else pure (a, b)
  | items _ l, _, _ => (Layout.list l).read
  | each l, _, n => Reader.many l.read n
  | tailList _ l, _, _ => Reader.counted (Reader.manyWhile l.read)
  | tailEach _ last, _, n => do
      let count ← Reader.count
      let vs ← Reader.manyWhile (Layout.choice last).read (min count n)
      pure (fill n vs)
  | unwritten _ _, d, _ => pure d

/-- The number of items after the part. -/
def itemsAfter : (p : Part) → p.Value → Nat → Nat
  | items _ _, (v : List _), _ => v.length
  | _, _, n => n

/-- Lengths and counts fit, and columns have a value for each item. -/
def Fits : (p : Part) → Nat → p.Value → Prop
  | field _ l, _, v => l.Fits v
  | limited _ _ limit, _, (v : Bytes × Bytes) => v.1.length ≤ limit ∧ v.2.length ≤ limit
  | items _ l, _, v | tailList _ l, _, v => (Layout.list l).Fits v
  | each l, n, (v : List l.Value) => v.length = n ∧ ∀ x ∈ v, l.Fits x
  | tailEach _ _, n, (v : List (Fin _)) => v.length = n ∧ v.length < 2 ^ 32
  | unwritten _ _, _, _ => True

instance decidableFits : (p : Part) → (n : Nat) → (v : p.Value) → Decidable (p.Fits n v)
  | field _ l, _, v => Layout.decidableFits l v
  | limited _ _ limit, _, (v : Bytes × Bytes) =>
      inferInstanceAs (Decidable (v.1.length ≤ limit ∧ v.2.length ≤ limit))
  | items _ l, _, v | tailList _ l, _, v => Layout.decidableFits (.list l) v
  | each l, n, (v : List l.Value) =>
      haveI := Layout.decidableFits l
      inferInstanceAs (Decidable (v.length = n ∧ ∀ x ∈ v, l.Fits x))
  | tailEach _ _, n, (v : List (Fin _)) =>
      inferInstanceAs (Decidable (v.length = n ∧ v.length < 2 ^ 32))
  | unwritten _ _, _, _ => .isTrue trivial

/-- What comes back: a field that is not written is at its default. -/
def carried : (p : Part) → p.Default → p.Value → p.Value
  | unwritten _ _, d, _ => d
  | _, _, v => v

/-- The name of a field that is not written. -/
def unwrittenName : Part → Option String
  | unwritten name _ => some name
  | _ => none

theorem carried_of_written {p : Part} (h : p.unwrittenName = none) (d : p.Default) (v : p.Value) :
    p.carried d v = v := by
  cases p with
  | unwritten name l => exact nomatch h
  | field | limited | items | each | tailList | tailEach => rfl

def layout : Part → Layout
  | field _ l | items _ l | each l | tailList _ l | unwritten _ l => l
  | limited _ _ _ => .text 0
  | tailEach _ last => .choice last

/-- Every value takes bytes, and is no deeper than `depth`. -/
def proper (depth : Nat) (p : Part) : Bool :=
  p.layout.wide && p.layout.proper && p.layout.depth < depth &&
    match p with
    | limited _ _ limit => limit < 2 ^ 32
    | _ => true

theorem itemsAfter_carried (p : Part) (d : p.Default) (v : p.Value) (n : Nat) :
    p.itemsAfter (p.carried d v) n = p.itemsAfter v n := by
  cases p with
  | items | field | limited | each | tailList | tailEach | unwritten => rfl

section Parts

variable {depth n : Nat} {p : Part}

theorem proper_layout (h : p.proper depth = true) :
    p.layout.wide = true ∧ p.layout.proper = true ∧ p.layout.depth < depth := by
  unfold proper at h
  simp only [Bool.and_eq_true, decide_eq_true_eq] at h
  exact ⟨h.1.1.1, h.1.1.2, h.1.2⟩

/-- The reader of a part takes what its writer put. -/
theorem frames (hproper : p.proper depth = true) (d : p.Default) {v : p.Value}
    (hfits : p.Fits n v) :
    Frames (p.read d n) (p.put v) (p.carried d v) := by
  obtain ⟨hwide, hlayout, -⟩ := proper_layout hproper
  cases p with
  | field name l => exact Layout.frames hlayout v hfits
  | limited first second limit =>
      have hlimit : limit < 2 ^ 32 := by
        unfold proper at hproper
        exact of_decide_eq_true (Bool.and_eq_true_iff.mp hproper).2
      change Bytes × Bytes at v
      obtain ⟨hfirst, hsecond⟩ : v.1.length ≤ limit ∧ v.2.length ≤ limit := hfits
      refine (Frames.text (lt_of_le_of_lt hfirst hlimit) 0).bind ?_
      refine (Frames.text (lt_of_le_of_lt hsecond hlimit) 0).bind_pure ?_
      rw [if_neg (not_lt.mpr hfirst), if_neg (not_lt.mpr hsecond)]
      exact Frames.pure _
  | items name l =>
      have hlist : (Layout.list l).proper = true := Bool.and_eq_true_iff.mpr ⟨hwide, hlayout⟩
      exact Layout.frames hlist v hfits
  | each l =>
      change List l.Value at v
      obtain ⟨rfl, hall⟩ : v.length = n ∧ ∀ x ∈ v, l.Fits x := hfits
      exact Frames.many fun x hx => Layout.frames hlayout x (hall x hx)
  | tailList name l =>
      change List l.Value at v
      obtain ⟨hlen, hall⟩ : v.length < 2 ^ 32 ∧ ∀ x ∈ v, l.Fits x := hfits
      refine Frames.counted hlen (Layout.length_le_flatMap hwide v) ?_
      exact Frames.manyWhile (fun x hx => Layout.frames hlayout x (hall x hx))
        fun x _ => Layout.put_ne_nil hwide x
  | tailEach name last =>
      change List (Fin (last + 1)) at v
      obtain ⟨rfl, hlen⟩ : v.length = n ∧ v.length < 2 ^ 32 := hfits
      refine Frames.count_bind hlen (Layout.length_le_flatMap (l := .choice last) hwide v) ?_
      rw [Nat.min_self]
      refine (Frames.manyWhile (fun x _ => Layout.frames hlayout x trivial)
        fun x _ => Layout.put_ne_nil (l := .choice last) hwide x).bind_pure ?_
      have hfill : fill v.length v = v := by
        unfold fill
        rw [Nat.sub_self, List.replicate_zero, List.append_nil]
      intro rest
      exact congrArg (fun vs => Except.ok (vs, rest)) hfill
  | unwritten name l => exact Frames.pure d

/-- A part that put nothing is a column of no items, or is not written. -/
theorem carried_of_put_nil (hproper : p.proper depth = true) (d : p.Default) {v : p.Value}
    (hfits : p.Fits n v) (h : p.put v = []) : p.carried d v = p.absent d n := by
  obtain ⟨hwide, -, -⟩ := proper_layout hproper
  cases p with
  | field name l => exact absurd h (Layout.put_ne_nil hwide v)
  | limited first second limit =>
      exact absurd (List.append_eq_nil_iff.mp h).1 (Layout.put_ne_nil (l := .text 0) rfl _)
  | items name l | tailList name l => exact absurd h (Layout.put_ne_nil (l := .list l) rfl v)
  | each l =>
      change List l.Value at v
      obtain ⟨rfl, -⟩ : v.length = n ∧ ∀ x ∈ v, l.Fits x := hfits
      have hlen : v.length ≤ 0 :=
        le_of_le_of_eq (Layout.length_le_flatMap hwide v) (congrArg List.length h)
      rw [List.length_eq_zero_iff.mp (Nat.le_zero.mp hlen)]
      rfl
  | tailEach name last => exact absurd h (Layout.put_ne_nil (l := .list (.choice last)) rfl v)
  | unwritten name l => rfl

/-- The reader of a part asks for no more than `depth` for each byte. -/
theorem frugal (hproper : p.proper depth = true) (d : p.Default) (n : Nat) :
    Frugal depth (p.read d n) := by
  obtain ⟨hwide, hlayout, hdepth⟩ := proper_layout hproper
  have hread : Frugal p.layout.depth p.layout.read := (Layout.frugal hlayout).1
  have htakes : Takes 1 p.layout.read := (Layout.frugal hlayout).2 hwide
  have hmono : ∀ {γ : Type} {r : Reader γ}, Frugal p.layout.depth r → Frugal depth r :=
    fun h => h.mono p.layout.depth_pos (Nat.le_of_lt hdepth)
  cases p with
  | field name l => exact hmono hread
  | limited first second limit =>
      refine (hmono (Frugal.text 0)).bind fun a => (hmono (Frugal.text 0)).bind fun b => ?_
      split
      · exact Frugal.throw _ _
      · split
        · exact Frugal.throw _ _
        · exact Frugal.pure _ _
  | items name l =>
      have hlist : (Layout.list l).proper = true := Bool.and_eq_true_iff.mpr ⟨hwide, hlayout⟩
      exact (Layout.frugal hlist).1.mono (Nat.succ_pos _) hdepth
  | each l => exact (hmono hread).many n
  | tailList name l =>
      have hcounted : Frugal (l.depth + 1) (Reader.counted (Reader.manyWhile l.read)) := by
        refine Frugal.counted (fun count => Frugal.manyWhile hread count) ?_
        intro count bytes a rest hcount h
        rcases takes_manyWhile htakes h with hnil | htaken
        · rw [hnil, List.length_nil]
          omega
        · exact htaken
      exact hcounted.mono (Nat.succ_pos _) hdepth
  | tailEach name last =>
      refine (Frugal.count depth).bind fun count => ?_
      exact ((hmono hread).manyWhile _).bind fun _ => Frugal.pure _ _
  | unwritten name l => exact Frugal.pure _ _

end Parts

end Part

/-! ## Records -/

structure Field where
  part : Part
  /-- The reader checks here whether the bytes have ended. -/
  starts : Bool
  default : part.Default

/-- A value for each part. -/
def Values : List Part → Type
  | [] => Unit
  | p :: ps => p.Value × Values ps

/-- The first `k` parts. -/
def putFirst : (ps : List Part) → Nat → Values ps → Bytes
  | [], _, _ | _ :: _, 0, _ => []
  | p :: ps, k + 1, (v : p.Value × Values ps) => p.put v.1 ++ putFirst ps k v.2

namespace Field

def skips (f : Field) (skip : Bool) : Reader Bool :=
  if f.starts then Reader.atEnd else pure skip

def read (f : Field) (skip : Bool) (n : Nat) : Reader f.part.Value :=
  if skip then pure (f.part.absent f.default n) else f.part.read f.default n

end Field

/-- Fields that follow a check are left at their defaults with the one checked. -/
def readFields : (fs : List Field) → Bool → Nat → Reader (Values (fs.map Field.part))
  | [], _, _ => pure ()
  | f :: fs, skip, n => do
      let skip ← f.skips skip
      let v ← f.read skip n
      let vs ← readFields fs skip (f.part.itemsAfter v n)
      pure ((v, vs) : f.part.Value × Values (fs.map Field.part))

def FieldsFit : (ps : List Part) → Nat → Values ps → Prop
  | [], _, _ => True
  | p :: ps, n, (v : p.Value × Values ps) => p.Fits n v.1 ∧ FieldsFit ps (p.itemsAfter v.1 n) v.2

instance decidableFieldsFit :
    (ps : List Part) → (n : Nat) → (v : Values ps) → Decidable (FieldsFit ps n v)
  | [], _, _ => .isTrue trivial
  | p :: ps, n, (v : p.Value × Values ps) =>
      haveI := Part.decidableFits p n v.1
      haveI := decidableFieldsFit ps (p.itemsAfter v.1 n) v.2
      inferInstanceAs (Decidable (p.Fits n v.1 ∧ FieldsFit ps (p.itemsAfter v.1 n) v.2))

/-- The first `k` fields as they come back, the others at their defaults. -/
def cutFields : (fs : List Field) → Nat → Nat → Values (fs.map Field.part) →
    Values (fs.map Field.part)
  | [], _, _, _ => ()
  | f :: fs, k, n, (v : f.part.Value × Values (fs.map Field.part)) =>
      let x := if k = 0 then f.part.absent f.default n else f.part.carried f.default v.1
      ((x, cutFields fs (k - 1) (f.part.itemsAfter x n) v.2) :
        f.part.Value × Values (fs.map Field.part))

/-- The fields as they come back. -/
def carriedFields : (fs : List Field) → Values (fs.map Field.part) → Values (fs.map Field.part)
  | [], _ => ()
  | f :: fs, (v : f.part.Value × Values (fs.map Field.part)) =>
      ((f.part.carried f.default v.1, carriedFields fs v.2) :
        f.part.Value × Values (fs.map Field.part))

theorem cutFields_length (fs : List Field) (n : Nat) (v : Values (fs.map Field.part)) :
    cutFields fs fs.length n v = carriedFields fs v := by
  induction fs generalizing n with
  | nil => rfl
  | cons f fs ih => exact congrArg (Prod.mk _) (ih _ v.2)

theorem carriedFields_eq {fs : List Field} (h : ∀ f ∈ fs, f.part.unwrittenName = none)
    (v : Values (fs.map Field.part)) : carriedFields fs v = v := by
  induction fs with
  | nil => rfl
  | cons f fs ih =>
      obtain ⟨hpart, hparts⟩ := List.forall_mem_cons.mp h
      exact congrArg₂ Prod.mk (Part.carried_of_written hpart _ v.1) (ih hparts v.2)

section Fields

variable {depth n : Nat} {f : Field}

private theorem skips_ok (f : Field) {skip : Bool} {bytes : Bytes} (h : skip = true → bytes = []) :
    ∃ s, (f.skips skip bytes).result = .ok (s, bytes) ∧ (s = true → bytes = []) := by
  unfold Field.skips
  split
  · exact ⟨bytes.isEmpty, rfl, List.isEmpty_iff.mp⟩
  · exact ⟨skip, rfl, h⟩

private theorem field_read {skip : Bool} {v : f.part.Value} {rest : Bytes}
    (hproper : f.part.proper depth = true) (hfits : f.part.Fits n v)
    (hskip : skip = true → f.part.put v ++ rest = []) :
    (f.read skip n (f.part.put v ++ rest)).result = .ok (f.part.carried f.default v, rest) := by
  cases skip with
  | true =>
      obtain ⟨hput, rfl⟩ := List.append_eq_nil_iff.mp (hskip rfl)
      rw [hput, Part.carried_of_put_nil hproper f.default hfits hput]
      rfl
  | false => exact Part.frames hproper f.default hfits rest

/-- Past the end of the bytes every field is at its default. -/
theorem readFields_nil (fs : List Field) (n : Nat) (v : Values (fs.map Field.part)) :
    (readFields fs true n []).result = .ok (cutFields fs 0 n v, []) := by
  induction fs generalizing n with
  | nil => rfl
  | cons f fs ih =>
      have hskip : (f.skips true []).result = .ok (true, []) := by
        unfold Field.skips
        split <;> rfl
      have hread : (f.read true n []).result = .ok (f.part.absent f.default n, []) := rfl
      unfold readFields
      rw [bind_ok hskip, bind_ok hread, bind_ok (ih _ v.2)]
      rfl

/-- Fields are read back up to a cut where an addition begins.  The invariant is that
nothing is left where fields are skipped. -/
theorem readFields_cut {fs : List Field} {k n : Nat} {skip : Bool}
    {v : Values (fs.map Field.part)}
    (hproper : ∀ f ∈ fs, f.part.proper depth = true) (hfits : FieldsFit (fs.map Field.part) n v)
    (hcut : ∀ f ∈ fs[k]?, f.starts = true)
    (hskip : skip = true → putFirst (fs.map Field.part) k v = []) :
    (readFields fs skip n (putFirst (fs.map Field.part) k v)).result =
      .ok (cutFields fs k n v, []) := by
  induction fs generalizing k n skip with
  | nil => rfl
  | cons f fs ih =>
      obtain ⟨hpart, hparts⟩ := List.forall_mem_cons.mp hproper
      obtain ⟨hfirst, hrest⟩ := hfits
      cases k with
      | zero =>
          have hstarts : f.starts = true := hcut f rfl
          have hskips : f.skips skip = f.skips true := by
            unfold Field.skips
            rw [if_pos hstarts, if_pos hstarts]
          have hnil := readFields_nil (f :: fs) n v
          unfold readFields at hnil ⊢
          rw [hskips]
          exact hnil
      | succ k =>
          have hbytes : putFirst ((f :: fs).map Field.part) (k + 1) v =
              f.part.put v.1 ++ putFirst (fs.map Field.part) k v.2 := rfl
          rw [hbytes] at hskip ⊢
          obtain ⟨s, hskips, hnone⟩ := skips_ok f hskip
          have hread := field_read hpart hfirst hnone
          rw [← Part.itemsAfter_carried f.part f.default] at hrest
          have hmore := ih hparts hrest hcut fun h => (List.append_eq_nil_iff.mp (hnone h)).2
          unfold readFields
          rw [bind_ok hskips, bind_ok hread, bind_ok hmore]
          rfl

theorem frugal_readFields {fs : List Field} (hproper : ∀ f ∈ fs, f.part.proper depth = true)
    (skip : Bool) (n : Nat) : Frugal depth (readFields fs skip n) := by
  induction fs generalizing skip n with
  | nil => exact Frugal.pure _ _
  | cons f fs ih =>
      obtain ⟨hpart, hparts⟩ := List.forall_mem_cons.mp hproper
      have hskips : Frugal depth (f.skips skip) := by
        unfold Field.skips
        split
        · exact Frugal.atEnd depth
        · exact Frugal.pure depth _
      refine hskips.bind fun s => ?_
      have hread : Frugal depth (f.read s n) := by
        unfold Field.read
        split
        · exact Frugal.pure depth _
        · exact Part.frugal hpart f.default n
      exact hread.bind fun v => (ih hparts s _).bind fun vs => Frugal.pure depth _

end Fields

/-- What a writer puts and what a reader reads, in order. -/
structure Record (depth : Nat) where
  name : String
  puts : List Part
  reads : List Field
  agree : reads.map Field.part = puts
  proper : puts.all (Part.proper depth) = true

namespace Record

variable {depth : Nat}

def Value (r : Record depth) : Type := Values (r.reads.map Field.part)

/-- What a writer puts whose record ends before the `k`-th part. -/
def encodeFirst (r : Record depth) (k : Nat) (v : r.Value) : Bytes :=
  putFirst r.puts k (r.agree ▸ (v : Values (r.reads.map Field.part)))

def encode (r : Record depth) (v : r.Value) : Bytes := r.encodeFirst r.puts.length v

def decode (r : Record depth) : Reader r.Value := readFields r.reads false 0

def Fits (r : Record depth) (v : r.Value) : Prop := FieldsFit (r.reads.map Field.part) 0 v

instance (r : Record depth) (v : r.Value) : Decidable (r.Fits v) := decidableFieldsFit _ 0 v

/-- An addition begins at the `k`-th field, or the record ends. -/
def CutPoint (r : Record depth) (k : Nat) : Prop := ∀ f ∈ r.reads[k]?, f.starts = true

def cut (r : Record depth) (k : Nat) (v : r.Value) : r.Value := cutFields r.reads k 0 v

def carried (r : Record depth) (v : r.Value) : r.Value := carriedFields r.reads v

/-- The names of the fields that are not written. -/
def unwritten (r : Record depth) : List String := r.reads.filterMap fun f => f.part.unwrittenName

theorem part_proper (r : Record depth) : ∀ f ∈ r.reads, f.part.proper depth = true := by
  intro f hf
  refine List.all_eq_true.mp r.proper f.part ?_
  rw [← r.agree]
  exact List.mem_map_of_mem hf

theorem read_cut {r : Record depth} {k : Nat} {v : r.Value} (hfits : r.Fits v)
    (hcut : r.CutPoint k) :
    (r.decode (r.encodeFirst k v)).result = .ok (r.cut k v, []) := by
  have hproper := r.part_proper
  obtain ⟨name, puts, reads, hagree, hproper⟩ := r
  subst hagree
  exact readFields_cut hproper hfits hcut nofun

theorem read_encode {r : Record depth} {v : r.Value} (hfits : r.Fits v) :
    (r.decode (r.encode v)).result = .ok (r.carried v, []) := by
  have hlen : r.puts.length = r.reads.length := by
    rw [← r.agree, List.length_map]
  have hend : r.CutPoint r.reads.length := by
    intro f hf
    rw [List.getElem?_length] at hf
    exact nomatch hf
  rw [encode, hlen, read_cut hfits hend]
  exact congrArg (fun w => Except.ok (w, [])) (cutFields_length r.reads 0 v)

theorem carried_eq {r : Record depth} (h : r.unwritten = []) (v : r.Value) : r.carried v = v :=
  carriedFields_eq (List.filterMap_eq_nil_iff.mp h) v

theorem asked_le (r : Record depth) (bytes : Bytes) :
    (r.decode bytes).asked ≤ depth * bytes.length :=
  Nat.le_trans (Nat.le_add_right _ _) (frugal_readFields r.part_proper false 0 bytes)

end Record

end Clink.Verified.Wire
