import MerlionTsdb.Encoding.Span

/-!
# Block metadata

`meta.hpp` / `meta.cpp`: the contents of `meta.json`.  What a JSON value is written as, and what is got out
of one, is the library's; which value stands for a `BlockMeta`, and what is asked of one, is said here.
-/

namespace MerlionTsdb.Block

open Encoding

/-! ## JSON -/

/-- `nlohmann::json`.  An object is a map, so its fields come in the order of their keys. -/
inductive Json
  | null
  | bool (b : Bool)
  | int (z : Int)
  /-- A number with a fraction or an exponent, as it is written. -/
  | float (text : Bytes)
  | str (s : Str)
  | arr (items : List Json)
  | obj (fields : List (String × Json))

/-- The library: `dump(4)` and `json::parse`, `find` and the `get<T>` of the fields, with `none` for a field
that is not there and for an exception.  What is got out of the values that `to_json` builds is what went
into them. -/
structure JsonText where
  dump : Json → Bytes
  parse : Bytes → Option Json
  find : Json → String → Option Json
  getUInt64 : Json → Option UInt64
  getInt64 : Json → Option Int64
  getInt : Json → Option Int32
  getBool : Json → Option Bool
  getStr : Json → Option Str
  getStrs : Json → Option (List Str)
  find_obj : ∀ fields key, find (.obj fields) key = (fields.find? fun f ↦ f.1 = key).map Prod.snd
  getUInt64_int : ∀ n, getUInt64 (.int n.toNat) = some n
  getInt64_int : ∀ n, getInt64 (.int n.toInt) = some n
  getInt_int : ∀ n, getInt (.int n.toInt) = some n
  getBool_bool : ∀ b, getBool (.bool b) = some b
  getStr_str : ∀ s, getStr (.str s) = some s
  getStrs_arr : ∀ items, getStrs (.arr (items.map .str)) = some items

/-! ## The data -/

def kMetaVersion1 : Int32 := 1

/-- `BlockStats`. -/
structure BlockStats where
  numSamples : UInt64 := 0
  numFloatSamples : UInt64 := 0
  numHistogramSamples : UInt64 := 0
  numSeries : UInt64 := 0
  numChunks : UInt64 := 0
  numTombstones : UInt64 := 0
  deriving DecidableEq, Repr

/-- `BlockDesc`. -/
structure BlockDesc where
  ulid : Str := Str.empty
  minTime : Int64 := 0
  maxTime : Int64 := 0
  deriving DecidableEq

/-- `BlockMetaCompaction`. -/
structure BlockMetaCompaction where
  level : Int32 := 0
  sources : List Str := []
  deletable : Bool := false
  parents : List BlockDesc := []
  failed : Bool := false
  hints : List Str := []
  deriving DecidableEq

/-- `BlockMeta`. -/
structure BlockMeta where
  version : Int32 := kMetaVersion1
  ulid : Str := Str.empty
  minTime : Int64 := 0
  maxTime : Int64 := 0
  stats : BlockStats := {}
  compaction : BlockMetaCompaction := {}
  deriving DecidableEq

/-! ## Writing -/

/-- A counter, left out when it is zero. -/
def dumpCount (key : String) (n : UInt64) : List (String × Json) :=
  if n = 0 then [] else [(key, .int n.toNat)]

/-- A flag, left out when it is not set. -/
def dumpFlag (key : String) (b : Bool) : List (String × Json) :=
  if b then [(key, .bool true)] else []

/-- A list, left out when it is empty. -/
def dumpList {α : Type} (key : String) (item : α → Json) (items : List α) : List (String × Json) :=
  if items.isEmpty then [] else [(key, .arr (items.map item))]

-- The source sets the fields in another order; here they stand where the map puts them.

/-- `dump_stats`. -/
def dumpStats (s : BlockStats) : List (String × Json) :=
  dumpCount "numChunks" s.numChunks ++ (dumpCount "numFloatSamples" s.numFloatSamples ++
    (dumpCount "numHistogramSamples" s.numHistogramSamples ++ (dumpCount "numSamples" s.numSamples ++
      (dumpCount "numSeries" s.numSeries ++ dumpCount "numTombstones" s.numTombstones))))

/-- `dump_block_desc`. -/
def dumpBlockDesc (d : BlockDesc) : Json :=
  .obj [("maxTime", .int d.maxTime.toInt), ("minTime", .int d.minTime.toInt), ("ulid", .str d.ulid)]

/-- `dump_compaction`. -/
def dumpCompaction (c : BlockMetaCompaction) : List (String × Json) :=
  dumpFlag "deletable" c.deletable ++ (dumpFlag "failed" c.failed ++ (dumpList "hints" .str c.hints ++
    ([("level", .int c.level.toInt)] ++ (dumpList "parents" dumpBlockDesc c.parents ++
      dumpList "sources" .str c.sources))))

/-- `to_json`. -/
def toJson (m : BlockMeta) : Json :=
  .obj ([("compaction", .obj (dumpCompaction m.compaction)), ("maxTime", .int m.maxTime.toInt),
      ("minTime", .int m.minTime.toInt)] ++
    ((if (dumpStats m.stats).isEmpty then [] else [("stats", .obj (dumpStats m.stats))]) ++
      [("ulid", .str m.ulid), ("version", .int m.version.toInt)]))

/-! ## Reading -/

section

variable (text : JsonText)

/-- `load_if_present`. -/
def loadIfPresent {α : Type} (get : Json → Option α) (src : Json) (key : String) (dst : α) :
    Option α :=
  match text.find src key with
  | none | some .null => some dst
  | some j => get j

/-- `load_stats`. -/
def loadStats (src : Json) (dst : BlockStats) : Option BlockStats := do
  let numSamples ← loadIfPresent text text.getUInt64 src "numSamples" dst.numSamples
  let numFloatSamples ←
    loadIfPresent text text.getUInt64 src "numFloatSamples" dst.numFloatSamples
  let numHistogramSamples ←
    loadIfPresent text text.getUInt64 src "numHistogramSamples" dst.numHistogramSamples
  let numSeries ← loadIfPresent text text.getUInt64 src "numSeries" dst.numSeries
  let numChunks ← loadIfPresent text text.getUInt64 src "numChunks" dst.numChunks
  let numTombstones ← loadIfPresent text text.getUInt64 src "numTombstones" dst.numTombstones
  some {
    numSamples := numSamples
    numFloatSamples := numFloatSamples
    numHistogramSamples := numHistogramSamples
    numSeries := numSeries
    numChunks := numChunks
    numTombstones := numTombstones }

/-- `load_block_desc`. -/
def loadBlockDesc (src : Json) (dst : BlockDesc) : Option BlockDesc := do
  let ulid ← loadIfPresent text text.getStr src "ulid" dst.ulid
  let minTime ← loadIfPresent text text.getInt64 src "minTime" dst.minTime
  let maxTime ← loadIfPresent text text.getInt64 src "maxTime" dst.maxTime
  some { ulid := ulid, minTime := minTime, maxTime := maxTime }

/-- The parents of `load_compaction`, when they are an array. -/
def loadParents (src : Json) (dst : List BlockDesc) : Option (List BlockDesc) :=
  match text.find src "parents" with
  | some (.arr items) => items.mapM fun p ↦ loadBlockDesc text p {}
  | _ => some dst

/-- `load_compaction`. -/
def loadCompaction (src : Json) (dst : BlockMetaCompaction) : Option BlockMetaCompaction := do
  let level ← loadIfPresent text text.getInt src "level" dst.level
  let sources ← loadIfPresent text text.getStrs src "sources" dst.sources
  let deletable ← loadIfPresent text text.getBool src "deletable" dst.deletable
  let failed ← loadIfPresent text text.getBool src "failed" dst.failed
  let hints ← loadIfPresent text text.getStrs src "hints" dst.hints
  let parents ← loadParents text src dst.parents
  some {
    level := level
    sources := sources
    deletable := deletable
    parents := parents
    failed := failed
    hints := hints }

/-- A part of the root that is looked at when it is an object. -/
def loadObject {α : Type} (load : Json → α → Option α) (root : Json) (key : String) (dst : α) :
    Option α :=
  match text.find root key with
  | some (.obj fields) => load (.obj fields) dst
  | _ => some dst

/-- `from_json`. -/
def fromJson (root : Json) : Except Errc BlockMeta :=
  match loadIfPresent text text.getInt root "version" kMetaVersion1 with
  | none => .error .invalidArgument
  | some version =>
    if version ≠ kMetaVersion1 then .error .invalidArgument
    else
      match (do
        let ulid ← loadIfPresent text text.getStr root "ulid" Str.empty
        let minTime ← loadIfPresent text text.getInt64 root "minTime" 0
        let maxTime ← loadIfPresent text text.getInt64 root "maxTime" 0
        let stats ← loadObject text (loadStats text) root "stats" {}
        let compaction ← loadObject text (loadCompaction text) root "compaction" {}
        some ({
          version := version
          ulid := ulid
          minTime := minTime
          maxTime := maxTime
          stats := stats
          compaction := compaction } : BlockMeta)) with
      | none => .error .invalidArgument
      | some m => .ok m

end

/-- `encode_meta_json`. -/
def encodeMetaJson (text : JsonText) (m : BlockMeta) : Bytes := text.dump (toJson m)

/-- `decode_meta_json`. -/
def decodeMetaJson (text : JsonText) (bytes : Bytes) : Except Errc BlockMeta :=
  match text.parse bytes with
  | none => .error .invalidArgument
  | some root => fromJson text root

/-! ## A round trip -/

/-- The library parses what it has dumped for `m`. -/
def JsonText.Keeps (text : JsonText) (m : BlockMeta) : Prop :=
  text.parse (text.dump (toJson m)) = some (toJson m)

section

variable (text : JsonText)

theorem find_obj_append (front back : List (String × Json)) (key : String) :
    text.find (.obj (front ++ back)) key =
      (text.find (.obj front) key).or (text.find (.obj back) key) := by
  rw [text.find_obj, text.find_obj, text.find_obj, List.find?_append]
  cases front.find? fun f ↦ f.1 = key <;> rfl

@[simp] theorem find_dumpCount (k key : String) (n : UInt64) :
    text.find (.obj (dumpCount k n)) key = if k = key ∧ n ≠ 0 then some (.int n.toNat) else none := by
  rw [text.find_obj]
  unfold dumpCount
  by_cases hn : n = 0
  · simp [hn]
  · by_cases hk : k = key <;> simp [hn, hk]

@[simp] theorem find_dumpFlag (k key : String) (b : Bool) :
    text.find (.obj (dumpFlag k b)) key = if k = key ∧ b then some (.bool true) else none := by
  rw [text.find_obj]
  unfold dumpFlag
  cases b
  · simp
  · by_cases hk : k = key <;> simp [hk]

@[simp] theorem find_dumpList {α : Type} (k key : String) (item : α → Json) (items : List α) :
    text.find (.obj (dumpList k item items)) key =
      if k = key ∧ items ≠ [] then some (.arr (items.map item)) else none := by
  rw [text.find_obj]
  unfold dumpList
  cases items with
  | nil => simp
  | cons a items => by_cases hk : k = key <;> simp [hk]

variable {text}

/-- A counter is read back, when no other field has its key. -/
theorem loadIfPresent_count {src : Json} {key : String} {n : UInt64}
    (h : text.find src key = if n ≠ 0 then some (.int n.toNat) else none) :
    loadIfPresent text text.getUInt64 src key 0 = some n := by
  unfold loadIfPresent
  rw [h]
  by_cases hn : n = 0
  · rw [if_neg (not_not.mpr hn), hn]
  · rw [if_pos hn]
    exact text.getUInt64_int n

theorem loadStats_dumpStats (s : BlockStats) : loadStats text (.obj (dumpStats s)) {} = some s := by
  have hsrc : ∀ key, text.find (.obj (dumpStats s)) key =
      (text.find (.obj (dumpCount "numChunks" s.numChunks)) key).or
        ((text.find (.obj (dumpCount "numFloatSamples" s.numFloatSamples)) key).or
          ((text.find (.obj (dumpCount "numHistogramSamples" s.numHistogramSamples)) key).or
            ((text.find (.obj (dumpCount "numSamples" s.numSamples)) key).or
              ((text.find (.obj (dumpCount "numSeries" s.numSeries)) key).or
                (text.find (.obj (dumpCount "numTombstones" s.numTombstones)) key))))) := by
    intro key
    unfold dumpStats
    rw [find_obj_append, find_obj_append, find_obj_append, find_obj_append, find_obj_append]
  unfold loadStats
  rw [@loadIfPresent_count _ _ _ s.numSamples (by rw [hsrc]; simp),
    @loadIfPresent_count _ _ _ s.numFloatSamples (by rw [hsrc]; simp),
    @loadIfPresent_count _ _ _ s.numHistogramSamples (by rw [hsrc]; simp),
    @loadIfPresent_count _ _ _ s.numSeries (by rw [hsrc]; simp),
    @loadIfPresent_count _ _ _ s.numChunks (by rw [hsrc]; simp),
    @loadIfPresent_count _ _ _ s.numTombstones (by rw [hsrc]; simp)]
  rfl

/-- The items of a list are read back. -/
theorem mapM_map {α : Type} {item : α → Json} {get : Json → Option α}
    (h : ∀ a, get (item a) = some a) (items : List α) : (items.map item).mapM get = some items := by
  induction items with
  | nil => rfl
  | cons a items ih =>
    rw [List.map_cons, List.mapM_cons, h, ih]
    rfl

theorem loadIfPresent_strs {src : Json} {key : String} {items : List Str}
    (h : text.find src key = if items ≠ [] then some (.arr (items.map .str)) else none) :
    loadIfPresent text text.getStrs src key [] = some items := by
  unfold loadIfPresent
  rw [h]
  by_cases hnil : items = []
  · rw [if_neg (not_not.mpr hnil), hnil]
  · rw [if_pos hnil]
    exact text.getStrs_arr items

theorem loadIfPresent_flag {src : Json} {key : String} {b : Bool}
    (h : text.find src key = if b then some (.bool true) else none) :
    loadIfPresent text text.getBool src key false = some b := by
  unfold loadIfPresent
  rw [h]
  cases b with
  | false => rfl
  | true => exact text.getBool_bool true

theorem loadBlockDesc_dump (d : BlockDesc) : loadBlockDesc text (dumpBlockDesc d) {} = some d := by
  unfold loadBlockDesc dumpBlockDesc loadIfPresent
  simp [text.find_obj, text.getStr_str, text.getInt64_int]

theorem loadParents_dump {src : Json} {parents : List BlockDesc}
    (h : text.find src "parents" =
      if parents ≠ [] then some (.arr (parents.map dumpBlockDesc)) else none) :
    loadParents text src [] = some parents := by
  unfold loadParents
  rw [h]
  by_cases hnil : parents = []
  · rw [if_neg (not_not.mpr hnil), hnil]
  · rw [if_pos hnil]
    exact mapM_map loadBlockDesc_dump parents

theorem loadCompaction_dump (c : BlockMetaCompaction) :
    loadCompaction text (.obj (dumpCompaction c)) {} = some c := by
  have hsrc : ∀ key, text.find (.obj (dumpCompaction c)) key =
      (text.find (.obj (dumpFlag "deletable" c.deletable)) key).or
        ((text.find (.obj (dumpFlag "failed" c.failed)) key).or
          ((text.find (.obj (dumpList "hints" .str c.hints)) key).or
            ((text.find (.obj [("level", .int c.level.toInt)]) key).or
              ((text.find (.obj (dumpList "parents" dumpBlockDesc c.parents)) key).or
                (text.find (.obj (dumpList "sources" .str c.sources)) key))))) := by
    intro key
    unfold dumpCompaction
    rw [find_obj_append, find_obj_append, find_obj_append, find_obj_append, find_obj_append]
  have hother : ∀ key, key ≠ "level" → text.find (.obj [("level", .int c.level.toInt)]) key = none := by
    intro key hne
    rw [text.find_obj]
    simp [Ne.symm hne]
  have hlevel : loadIfPresent text text.getInt (.obj (dumpCompaction c)) "level" 0 =
      some c.level := by
    have hfind : text.find (.obj [("level", .int c.level.toInt)]) "level" =
        some (.int c.level.toInt) := text.find_obj _ _
    unfold loadIfPresent
    rw [hsrc, hfind]
    simp [text.getInt_int]
  unfold loadCompaction
  rw [hlevel, @loadIfPresent_strs _ _ _ c.sources (by rw [hsrc, hother _ (by decide)]; simp),
    @loadIfPresent_flag _ _ _ c.deletable (by rw [hsrc, hother _ (by decide)]; simp),
    @loadIfPresent_flag _ _ _ c.failed (by rw [hsrc, hother _ (by decide)]; simp),
    @loadIfPresent_strs _ _ _ c.hints (by rw [hsrc, hother _ (by decide)]; simp),
    @loadParents_dump _ _ c.parents (by rw [hsrc, hother _ (by decide)]; simp)]
  rfl

/-- Every metadata of the known version is read back as it was written. -/
theorem fromJson_toJson {m : BlockMeta} (h : m.version = kMetaVersion1) :
    fromJson text (toJson m) = .ok m := by
  -- Empty statistics are left out, and the reader takes their default.
  have hstats : text.find (toJson m) "stats" =
      if (dumpStats m.stats).isEmpty then none else some (.obj (dumpStats m.stats)) := by
    unfold toJson
    rw [text.find_obj]
    cases (dumpStats m.stats).isEmpty <;> simp
  have hload : loadObject text (loadStats text) (toJson m) "stats" {} = some m.stats := by
    have hround := @loadStats_dumpStats text m.stats
    unfold loadObject
    rw [hstats]
    by_cases hempty : (dumpStats m.stats).isEmpty = true
    · rw [if_pos hempty]
      rw [List.isEmpty_iff.mp hempty] at hround
      rw [← hround]
      unfold loadStats loadIfPresent
      simp [text.find_obj]
    · rw [if_neg hempty]
      exact hround
  -- The other fields are there either way.
  have hfield : ∀ key, key ≠ "stats" → text.find (toJson m) key =
      text.find (.obj [("compaction", .obj (dumpCompaction m.compaction)),
        ("maxTime", .int m.maxTime.toInt), ("minTime", .int m.minTime.toInt), ("ulid", .str m.ulid),
        ("version", .int m.version.toInt)]) key := by
    intro key hne
    unfold toJson
    rw [text.find_obj, text.find_obj]
    cases (dumpStats m.stats).isEmpty <;> simp [Ne.symm hne, List.find?_cons]
  have hversion : loadIfPresent text text.getInt (toJson m) "version" kMetaVersion1 =
      some m.version := by
    unfold loadIfPresent
    rw [hfield _ (by decide)]
    simp [text.find_obj, text.getInt_int]
  have hulid : loadIfPresent text text.getStr (toJson m) "ulid" Str.empty = some m.ulid := by
    unfold loadIfPresent
    rw [hfield _ (by decide)]
    simp [text.find_obj, text.getStr_str]
  have hmin : loadIfPresent text text.getInt64 (toJson m) "minTime" 0 = some m.minTime := by
    unfold loadIfPresent
    rw [hfield _ (by decide)]
    simp [text.find_obj, text.getInt64_int]
  have hmax : loadIfPresent text text.getInt64 (toJson m) "maxTime" 0 = some m.maxTime := by
    unfold loadIfPresent
    rw [hfield _ (by decide)]
    simp [text.find_obj, text.getInt64_int]
  have hcompaction : loadObject text (loadCompaction text) (toJson m) "compaction" {} =
      some m.compaction := by
    unfold loadObject
    rw [hfield _ (by decide), text.find_obj]
    simp only [List.find?_cons]
    exact loadCompaction_dump m.compaction
  unfold fromJson
  rw [hversion]
  dsimp only
  rw [if_neg (not_not.mpr h), hulid, hmin, hmax, hload, hcompaction]
  rfl

end

/-- What the library keeps is read back. -/
theorem decodeMetaJson_encode {text : JsonText} {m : BlockMeta} (hkeeps : text.Keeps m)
    (h : m.version = kMetaVersion1) : decodeMetaJson text (encodeMetaJson text m) = .ok m := by
  unfold decodeMetaJson encodeMetaJson
  rw [hkeeps]
  exact fromJson_toJson h

/-! ## A library on given texts -/

namespace Json

/-- It finds nothing in a value that is no object. -/
def find (j : Json) (key : String) : Option Json :=
  match j with
  | .obj fields => (fields.find? fun f ↦ f.1 = key).map Prod.snd
  | _ => none

def getUInt64 : Json → Option UInt64
  | .int z => some (UInt64.ofInt z)
  | _ => none

def getInt64 : Json → Option Int64
  | .int z => some (Int64.ofInt z)
  | _ => none

/-- A boolean is taken for a number. -/
def getInt : Json → Option Int32
  | .int z => some (Int32.ofInt z)
  | .bool b => some (if b then 1 else 0)
  | _ => none

def getBool : Json → Option Bool
  | .bool b => some b
  | _ => none

def getStr : Json → Option Str
  | .str s => some s
  | _ => none

def getStrs : Json → Option (List Str)
  | .arr items => items.mapM getStr
  | _ => none

theorem getUInt64_int (n : UInt64) : getUInt64 (.int n.toNat) = some n := by
  have hlt := n.toNat_lt
  have hmod : (n.toNat : Int) % 2 ^ 64 = n.toNat := Int.emod_eq_of_lt (by omega) (by omega)
  show some (UInt64.ofInt n.toNat) = some n
  unfold UInt64.ofInt
  rw [hmod, Int.toNat_natCast, UInt64.ofNat_toNat]

def lineBreak (indent : Nat) : Bytes := 10 :: List.replicate (4 * indent) 32

def quoted (bytes : Bytes) : Bytes := 34 :: (bytes ++ [34])

def ascii (s : String) : Bytes := s.toList.map fun c ↦ UInt8.ofNat c.toNat

mutual

/-- `dump(4)`, for strings that need no escape. -/
def print (indent : Nat) : Json → Bytes
  | .null => ascii "null"
  | .bool b => ascii (if b then "true" else "false")
  | .int z => ascii (toString z)
  | .float text => text
  | .str s => quoted s.bytes
  | .arr [] => [91, 93]
  | .arr (item :: items) =>
    91 :: (lineBreak (indent + 1) ++ (print (indent + 1) item ++
      (printItems (indent + 1) items ++ (lineBreak indent ++ [93]))))
  | .obj [] => [123, 125]
  | .obj ((key, value) :: fields) =>
    123 :: (lineBreak (indent + 1) ++ (quoted (ascii key) ++ (58 :: 32 :: (print (indent + 1) value ++
      (printFields (indent + 1) fields ++ (lineBreak indent ++ [125]))))))

def printItems (indent : Nat) : List Json → Bytes
  | [] => []
  | item :: items => 44 :: (lineBreak indent ++ (print indent item ++ printItems indent items))

def printFields (indent : Nat) : List (String × Json) → Bytes
  | [] => []
  | (key, value) :: fields =>
    44 :: (lineBreak indent ++ (quoted (ascii key) ++ (58 :: 32 :: (print indent value ++
      printFields indent fields))))

end

end Json

/-- The library, as far as it is asked to parse the texts of `metas`. -/
def JsonText.of (metas : List BlockMeta) : JsonText where
  dump := Json.print 0
  parse bytes := (metas.find? fun m ↦ Json.print 0 (toJson m) = bytes).map toJson
  find := Json.find
  getUInt64 := Json.getUInt64
  getInt64 := Json.getInt64
  getInt := Json.getInt
  getBool := Json.getBool
  getStr := Json.getStr
  getStrs := Json.getStrs
  find_obj _ _ := rfl
  getUInt64_int := Json.getUInt64_int
  getInt64_int n := congrArg some (Int64.ofInt_toInt n)
  getInt_int n := congrArg some (Int32.ofInt_toInt n)
  getBool_bool _ := rfl
  getStr_str _ := rfl
  getStrs_arr items := @mapM_map _ Json.str Json.getStr (fun _ ↦ rfl) items

theorem JsonText.keeps_of {metas : List BlockMeta} {m : BlockMeta}
    (h : metas.find? (fun m' ↦ Json.print 0 (toJson m') = Json.print 0 (toJson m)) = some m) :
    (JsonText.of metas).Keeps m := by
  unfold JsonText.Keeps JsonText.of
  dsimp only
  rw [h]
  rfl

theorem JsonText.keeps_singleton (m : BlockMeta) : (JsonText.of [m]).Keeps m :=
  keeps_of (List.find?_cons_of_pos (decide_eq_true rfl))

end MerlionTsdb.Block
