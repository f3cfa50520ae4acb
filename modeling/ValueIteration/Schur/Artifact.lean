import ValueIteration.Lib.Codec

/-!
# The Schur artifact and its file

Portals and, for each tile, the portals on it with the matrix of the passage costs
between them. The file is a magic, seven geometry words, the portals and the tiles, each
list behind its length; the length of a matrix is not written, it is the square of the
number of the tile's portals.
-/

set_option autoImplicit false

namespace ValueIteration

open Codec

/-- `Portal`: a state by its cell and heading in the map. -/
structure Portal where
  ix : Int32
  iy : Int32
  it : Int32
  deriving DecidableEq, Repr

/-- `TileEdges`; `w[i * n + j]` is the passage cost from portal `i` to portal `j`. -/
structure TileEdges where
  portals : List UInt32
  w : List UInt64
  deriving DecidableEq, Repr

structure SchurArtifact where
  tile : Int32
  halo : Int32
  nx : Int32
  ny : Int32
  nt : Int32
  tnx : Int32
  tny : Int32
  portals : List Portal
  tiles : List TileEdges
  deriving DecidableEq, Repr

/-- The errors that `load` makes itself or passes on from `read_exact`. -/
inductive IoError
  | unexpectedEof
  | invalidData (text : String)
  deriving DecidableEq, Repr

abbrev ArtifactReader (α : Type) := Reader IoError UInt8 α

/-- `MAGIC`, the bytes of "VISCHUR1". -/
def schurMagic : List UInt8 := [0x56, 0x49, 0x53, 0x43, 0x48, 0x55, 0x52, 0x31]

def writeU32 (v : UInt32) : List UInt8 := leBytes 4 v.toNat

def writeI32 (v : Int32) : List UInt8 := writeU32 v.toUInt32

def writeU64 (v : UInt64) : List UInt8 := leBytes 8 v.toNat

/-- `len() as u32`. -/
def writeLen {α : Type} (l : List α) : List UInt8 := writeU32 (UInt32.ofNat l.length)

def readU32 : ArtifactReader UInt32 := do
  let b ← readExact .unexpectedEof 4
  pure (UInt32.ofNat (ofLeBytes b))

def readI32 : ArtifactReader Int32 := do
  let b ← readExact .unexpectedEof 4
  pure (UInt32.ofNat (ofLeBytes b)).toInt32

def readU64 : ArtifactReader UInt64 := do
  let b ← readExact .unexpectedEof 8
  pure (UInt64.ofNat (ofLeBytes b))

def Portal.write (p : Portal) : List UInt8 := writeI32 p.ix ++ (writeI32 p.iy ++ writeI32 p.it)

def TileEdges.write (t : TileEdges) : List UInt8 :=
  writeLen t.portals ++ (t.portals.flatMap writeU32 ++ t.w.flatMap writeU64)

/-- `SchurArtifact::save`: the bytes it writes to the file. -/
def SchurArtifact.save (art : SchurArtifact) : List UInt8 :=
  schurMagic ++
    ([art.tile, art.halo, art.nx, art.ny, art.nt, art.tnx, art.tny].flatMap writeI32 ++
      (writeLen art.portals ++ (art.portals.flatMap Portal.write ++
        (writeLen art.tiles ++ art.tiles.flatMap TileEdges.write))))

def readPortal : ArtifactReader Portal := do
  let ix ← readI32
  let iy ← readI32
  let it ← readI32
  pure { ix, iy, it }

def readTile : ArtifactReader TileEdges := do
  let n ← readU32
  let plist ← readMany readU32 n.toNat
  let w ← readMany readU64 (n.toNat * n.toNat)
  pure { portals := plist, w }

def readMagic : ArtifactReader Unit := do
  let magic ← readExact .unexpectedEof 8
  if magic ≠ schurMagic then throw (.invalidData "not a VISCHUR1 file")

/-- `SchurArtifact::load`, on the bytes of the file; what it does not read is left over. -/
def SchurArtifact.load : ArtifactReader SchurArtifact := do
  readMagic
  let tile ← readI32
  let halo ← readI32
  let nx ← readI32
  let ny ← readI32
  let nt ← readI32
  let tnx ← readI32
  let tny ← readI32
  let np ← readU32
  let portals ← readMany readPortal np.toNat
  let ntl ← readU32
  let tiles ← readMany readTile ntl.toNat
  pure { tile, halo, nx, ny, nt, tnx, tny, portals, tiles }

/-- The lengths fit the file's 32-bit words and every matrix is square. -/
structure TileEdges.Storable (t : TileEdges) : Prop where
  short : t.portals.length < 2 ^ 32
  square : t.w.length = t.portals.length * t.portals.length

structure SchurArtifact.Storable (art : SchurArtifact) : Prop where
  portals_short : art.portals.length < 2 ^ 32
  tiles_short : art.tiles.length < 2 ^ 32
  tiles_storable : ∀ t ∈ art.tiles, t.Storable

theorem encodes_u32 (v : UInt32) : Encodes readU32 (writeU32 v) v := by
  have hv : ofLeBytes (writeU32 v) = v.toNat := ofLeBytes_leBytes_of_lt v.toNat_lt
  apply (encodes_readExact (length_leBytes 4 v.toNat)).bind_pure
  show pure (UInt32.ofNat (ofLeBytes (writeU32 v))) = _
  rw [hv, UInt32.ofNat_toNat]

theorem encodes_i32 (v : Int32) : Encodes readI32 (writeI32 v) v := by
  have hv : ofLeBytes (writeI32 v) = v.toUInt32.toNat :=
    ofLeBytes_leBytes_of_lt v.toUInt32.toNat_lt
  apply (encodes_readExact (length_leBytes 4 v.toUInt32.toNat)).bind_pure
  show pure (UInt32.ofNat (ofLeBytes (writeI32 v))).toInt32 = _
  rw [hv, UInt32.ofNat_toNat, Int32.toInt32_toUInt32]

theorem encodes_u64 (v : UInt64) : Encodes readU64 (writeU64 v) v := by
  have hv : ofLeBytes (writeU64 v) = v.toNat := ofLeBytes_leBytes_of_lt v.toNat_lt
  apply (encodes_readExact (length_leBytes 8 v.toNat)).bind_pure
  show pure (UInt64.ofNat (ofLeBytes (writeU64 v))) = _
  rw [hv, UInt64.ofNat_toNat]

theorem encodes_portal (p : Portal) : Encodes readPortal p.write p := by
  apply (encodes_i32 p.ix).bind
  apply (encodes_i32 p.iy).bind
  exact (encodes_i32 p.it).bind_pure rfl

/-- A length below the word is read back as it is. -/
theorem toNat_len {α : Type} {l : List α} (h : l.length < 2 ^ 32) :
    (UInt32.ofNat l.length).toNat = l.length := UInt32.toNat_ofNat_of_lt' h

theorem encodes_tile {t : TileEdges} (ht : t.Storable) : Encodes readTile t.write t := by
  have hlen := toNat_len ht.short
  apply (encodes_u32 _).bind
  apply (Encodes.many_of_length hlen fun p _ => encodes_u32 p).bind
  have hsquare : (UInt32.ofNat t.portals.length).toNat * (UInt32.ofNat t.portals.length).toNat =
      t.w.length := by
    rw [hlen, ht.square]
  exact (Encodes.many_of_length hsquare fun v _ => encodes_u64 v).bind_pure rfl

theorem encodes_magic : Encodes readMagic schurMagic () := by
  apply (encodes_readExact (show schurMagic.length = 8 from rfl)).bind_pure
  exact if_neg (not_not_intro rfl)

theorem encodes_artifact {art : SchurArtifact} (hart : art.Storable) :
    Encodes SchurArtifact.load art.save art := by
  apply encodes_magic.bind
  apply (encodes_i32 art.tile).bind
  apply (encodes_i32 art.halo).bind
  apply (encodes_i32 art.nx).bind
  apply (encodes_i32 art.ny).bind
  apply (encodes_i32 art.nt).bind
  apply (encodes_i32 art.tnx).bind
  apply (encodes_i32 art.tny).bind
  apply (encodes_u32 _).bind
  apply (Encodes.many_of_length (toNat_len hart.portals_short) fun p _ => encodes_portal p).bind
  apply (encodes_u32 _).bind
  exact (Encodes.many_of_length (toNat_len hart.tiles_short)
    fun t ht => encodes_tile (hart.tiles_storable t ht)).bind_pure rfl

/-- `load` returns what was saved, consumes exactly its bytes and fails on any part of them. -/
theorem SchurArtifact.load_save (art : SchurArtifact) (hart : art.Storable) :
    (∀ rest, load.run (art.save ++ rest) = .ok (art, rest)) ∧
      ∀ front, front <+: art.save → front ≠ art.save → ∃ e, load.run front = .error e :=
  ⟨(encodes_artifact hart).reads, (encodes_artifact hart).short⟩

/-- Two portals on the edge between two tiles, of which only the first uses both. -/
def twoPortals : SchurArtifact where
  tile := 4
  halo := 2
  nx := 8
  ny := 4
  nt := 4
  tnx := 2
  tny := 1
  portals := [⟨3, 1, 0⟩, ⟨4, 1, 2⟩]
  tiles := [⟨[0, 1], [0, 262144, 786432, 0]⟩, ⟨[1], [0]⟩]

theorem twoPortals_load_save :
    (∀ rest, SchurArtifact.load.run (twoPortals.save ++ rest) = .ok (twoPortals, rest)) ∧
      ∀ front, front <+: twoPortals.save → front ≠ twoPortals.save →
        ∃ e, SchurArtifact.load.run front = .error e := by
  have hsquare : ∀ t ∈ twoPortals.tiles,
      t.portals.length < 2 ^ 32 ∧ t.w.length = t.portals.length * t.portals.length := by
    decide
  exact SchurArtifact.load_save twoPortals
    ⟨by decide, by decide, fun t ht => ⟨(hsquare t ht).1, (hsquare t ht).2⟩⟩

end ValueIteration
