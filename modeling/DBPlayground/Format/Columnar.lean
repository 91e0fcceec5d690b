import DBPlayground.Format.Codec
import DBPlayground.Lib.Cursor

namespace DBPlayground.Format

open ByteReader Table

def kMagic : Bytes := ascii "DBC1"

def kWriteEncoding : Byte := 1

structure ColumnMeta where
  encoding : Byte
  compression : Byte
  offset : BitVec 64
  storedSize : BitVec 64
  rawSize : BitVec 64
  valueCount : BitVec 64
  deriving DecidableEq, Repr

/-- `max_size` of a `std::vector<ColumnMeta>`: one record takes 40 bytes. -/
def maxMetas : Nat := maxSize / 40

def readAt (file : Bytes) (offset len : BitVec 64) : Option Bytes :=
  if file.length < offset.toNat ∨ file.length - offset.toNat < len.toNat then none
  else some ((file.drop offset.toNat).take len.toNat)

def putU64 (n : BitVec 64) : Bytes := leBytes 8 n.toNat

/-- The footer is walked with a bare pointer, without a look at its length. -/
def getU64 : Reader Failure (BitVec 64) := do
  let n ← le .outOfBounds 8
  pure (BitVec.ofNat 64 n)

def getMeta : Reader Failure ColumnMeta := do
  let encoding ← byte .outOfBounds
  let compression ← byte .outOfBounds
  let offset ← getU64
  let storedSize ← getU64
  let rawSize ← getU64
  let valueCount ← getU64
  pure ⟨encoding, compression, offset, storedSize, rawSize, valueCount⟩

def getFooter : Reader Failure (BitVec 64 × List ColumnMeta) := do
  let rowCount ← getU64
  let colCount ← getU64
  throwIf (maxMetas < colCount.toNat) (.threw .lengthError : Failure)
  let metas ← times colCount.toNat getMeta
  pure (rowCount, metas)

def readU64At (file : Bytes) (offset : BitVec 64) : Except Failure (BitVec 64) :=
  match readAt file offset 8 with
  | some buf => .ok (BitVec.ofNat 64 (leNat buf))
  | none => .error (.threw (.runtimeError "NativeColumnar: read past end of file"))

def parseFooter (file : Bytes) : Except Failure (BitVec 64 × List ColumnMeta) := do
  let size := BitVec.ofNat 64 file.length
  let trailer : BitVec 64 := 12
  throwIf (size < 4 + trailer)
    (.threw (.runtimeError "NativeColumnar: file too small / not a native file") : Failure)
  throwIf (readAt file (size - 4) 4 ≠ some kMagic)
    (.threw (.runtimeError "NativeColumnar: bad trailing magic") : Failure)
  let footerSize ← readU64At file (size - trailer)
  match readAt file (size - trailer - footerSize) footerSize with
  | some footer => (getFooter footer).map (·.1)
  | none => .error (.threw (.runtimeError "NativeColumnar: truncated footer"))

/-- Copy `count` values of `src` starting at `start` onto the end of `dst`.
No caller's `start + count` exceeds 64 bits. -/
def appendRange (dst src : Column) (start count : Nat) : Except Failure Column := do
  let vals ← src.readRangeAs (.invalidArgument "NativeColumnar: invalid column type") dst.type start count
  pure (dst.appendAll vals)

/-- The one encoding-dependent step, "read rows [a, b) of a page". The whole
page is decoded on first use and kept. -/
inductive PageAccessor
  | wholePage (page : ColumnMeta) (type : FieldType) (decoded : Option Column)
  | fixedWidthDirect (page : ColumnMeta) (width : Nat)
  deriving DecidableEq, Repr

/-- Fetch and decode a page. An exception out of `Decode` leaves behind the
values decoded until then. -/
def decodePage (Z : Zlib) (file : Bytes) (page : ColumnMeta) (type : FieldType) :
    Except (Failure × Option Column) Column :=
  match readAt file page.offset page.storedSize with
  | none => .error (.threw (.runtimeError "NativeColumnar: truncated column page"), none)
  | some stored =>
    match CodecRegistry.getCompression page.compression >>= fun c => c.decompress Z stored page.rawSize.toNat with
    | .error e => .error (e, none)
    | .ok encoded =>
      match CodecRegistry.getEncoding page.encoding with
      | .error e => .error (e, some (Column.new type))
      | .ok () =>
        match PlainCodec.decode encoded page.valueCount.toNat (Column.new type) with
        | (.error e, col) => .error (e, some col)
        | (.ok (), col) => .ok col

def readRows (Z : Zlib) (file : Bytes) (acc : PageAccessor) (first count : BitVec 64) (out : Column) :
    Except Failure Column × PageAccessor :=
  match acc with
  | .wholePage page type (some col) => (appendRange out col first.toNat count.toNat, .wholePage page type (some col))
  | .wholePage page type none =>
    match decodePage Z file page type with
    | .error (e, decoded) => (.error e, .wholePage page type decoded)
    | .ok col => (appendRange out col first.toNat count.toNat, .wholePage page type (some col))
  | .fixedWidthDirect page width =>
    match readAt file (page.offset + first * BitVec.ofNat 64 width) (count * BitVec.ofNat 64 width) with
    | none =>
      (.error (.threw (.runtimeError "NativeColumnar: truncated column page (direct)")), .fixedWidthDirect page width)
    | some bytes =>
      match CodecRegistry.getEncoding page.encoding with
      | .error e => (.error e, .fixedWidthDirect page width)
      | .ok () =>
        match PlainCodec.decode bytes count.toNat out with
        | (.error e, _) => (.error e, .fixedWidthDirect page width)
        | (.ok (), col) => (.ok col, .fixedWidthDirect page width)

def makeAccessor (page : ColumnMeta) (type : FieldType) : Except Failure PageAccessor := do
  CodecRegistry.getEncoding page.encoding
  let width := PlainCodec.fixedWidth type
  pure (if 0 < width ∧ page.compression = CompressionId.none.code then .fixedWidthDirect page width
    else .wholePage page type none)

structure FileReader where
  file : Bytes
  projection : List Int
  columns : List (FieldType × PageAccessor)
  rowCount : BitVec 64
  deriving DecidableEq, Repr

def readColumns (Z : Zlib) (file : Bytes) (first count : BitVec 64) :
    List (FieldType × PageAccessor) → Except Failure (List Column) × List (FieldType × PageAccessor)
  | [] => (.ok [], [])
  | (type, acc) :: rest =>
    match readRows Z file acc first count (Column.new type) with
    | (.error e, acc') => (.error e, (type, acc') :: rest)
    | (.ok col, acc') =>
      match readColumns Z file first count rest with
      | (.error e, rest') => (.error e, (type, acc') :: rest')
      | (.ok cols, rest') => (.ok (col :: cols), (type, acc') :: rest')

/-- `ReadRange`, with `none` for false. -/
def readRange (Z : Zlib) (r : FileReader) (firstRow numRows : BitVec 64) :
    Except Failure (Option Chunk) × FileReader :=
  if r.rowCount ≤ firstRow then (.ok none, r)
  else
    let n := if numRows < r.rowCount - firstRow then numRows else r.rowCount - firstRow
    if n = 0 then (.ok none, r)
    else
      match readColumns Z r.file firstRow n r.columns with
      | (.error e, columns) => (.error e, { r with columns := columns })
      | (.ok cols, columns) => (.ok (some ⟨r.projection, cols, n.toNat⟩), { r with columns := columns })

def projectField (schema : Schema) (metas : List ColumnMeta) (field : Int) :
    Except Failure (FieldType × ColumnMeta) := do
  throwIf (field < 0 ∨ metas.length ≤ field.toNat)
    (.threw (.outOfRange "NativeColumnar: projection index out of range") : Failure)
  match schema[field.toNat]?, metas[field.toNat]? with
  | some f, some page => pure (f.type, page)
  | _, _ => throw .outOfBounds

def openReader (schema : Schema) (file : Bytes) (projection : List Int) : Except Failure FileReader := do
  let (rowCount, metas) ← parseFooter file
  let fields ← projection.mapM (projectField schema metas)
  let columns ← fields.mapM fun p => do
    let acc ← makeAccessor p.2 p.1
    pure (p.1, acc)
  pure ⟨file, projection, columns, rowCount⟩

namespace Writer

def new (schema : Schema) : List Column := schema.map fun f => Column.new f.type

def appendColumns : List Column → List Column → Except Failure (List Column)
  | col :: cols, src :: srcs => do
    let col' ← appendRange col src 0 src.size
    let cols' ← appendColumns cols srcs
    pure (col' :: cols')
  | cols, _ => pure cols

def write (cols : List Column) (chunk : Chunk) : Except Failure (List Column) := do
  throwIf (chunk.columns.length ≠ cols.length)
    (.threw (.invalidArgument "NativeColumnar: writer expects full-schema chunks") : Failure)
  appendColumns cols chunk.columns

def writeAll (cols : List Column) (chunks : List Chunk) : Except Failure (List Column) := chunks.foldlM write cols

def metaBytes (m : ColumnMeta) : Bytes :=
  [m.encoding] ++ ([m.compression] ++ (putU64 m.offset ++ (putU64 m.storedSize ++ (putU64 m.rawSize ++
    putU64 m.valueCount))))

def footerBytes (rowCount : BitVec 64) (metas : List ColumnMeta) : Bytes :=
  putU64 rowCount ++ (putU64 (BitVec.ofNat 64 metas.length) ++ metas.flatMap metaBytes)

def pageMeta (compression : CompressionId) (body stored encoded : Bytes) (col : Column) : ColumnMeta :=
  ⟨kWriteEncoding, compression.code, BitVec.ofNat 64 body.length, BitVec.ofNat 64 stored.length,
    BitVec.ofNat 64 encoded.length, BitVec.ofNat 64 col.size⟩

def writePages (Z : Zlib) (compression : CompressionId) (c : Compression) :
    List Column → Bytes → List ColumnMeta → Except Failure (Bytes × List ColumnMeta)
  | [], body, metas => pure (body, metas)
  | col :: cols, body, metas => do
    let encoded ← PlainCodec.encode col
    let stored ← c.compress Z encoded
    let body' ← appendString body stored
    writePages Z compression c cols body' (metas ++ [pageMeta compression body stored encoded col])

def rowCount : List Column → BitVec 64
  | [] => 0
  | col :: _ => BitVec.ofNat 64 col.size

def close (Z : Zlib) (compression : CompressionId) (cols : List Column) : Except Failure Bytes := do
  CodecRegistry.getEncoding kWriteEncoding
  let c ← CodecRegistry.getCompression compression.code
  throwIf (maxMetas < cols.length) (.threw .lengthError : Failure)
  let pages ← writePages Z compression c cols kMagic []
  let footer := footerBytes (rowCount cols) pages.2
  appendString pages.1 (footer ++ (putU64 (BitVec.ofNat 64 footer.length) ++ kMagic))

end Writer

structure ScanSource where
  zlib : Zlib
  schema : Schema
  store : Bytes → Option Bytes
  projection : List Int
  batchRows : BitVec 64

structure ScanCursor where
  files : List Bytes
  reader : Option FileReader
  pos : BitVec 64

namespace ScanSource

def start (_ : ScanSource) (files : List Bytes) : ScanCursor := ⟨files, none, 0⟩

def window (src : ScanSource) : BitVec 64 := if src.batchRows = 0 then 1 else src.batchRows

def nextWindow (src : ScanSource) (files : List Bytes) (r : FileReader) (pos : BitVec 64) :
    Except Failure (Option Chunk) × ScanCursor :=
  let n := if src.window < r.rowCount - pos then src.window else r.rowCount - pos
  match readRange src.zlib r pos n with
  | (.error e, r') => (.error e, ⟨files, some r', pos⟩)
  | (.ok chunk, r') => (.ok chunk, ⟨files, some r', pos + n⟩)

/-- `Next` without an open reader: go to the next file that exists and has rows. -/
def nextFile (src : ScanSource) : List Bytes → Except Failure (Option Chunk) × ScanCursor
  | [] => (.ok none, ⟨[], none, 0⟩)
  | file :: files =>
    match src.store file with
    | none => src.nextFile files
    | some bytes =>
      match openReader src.schema bytes src.projection with
      | .error e => (.error e, ⟨files, none, 0⟩)
      | .ok r => if r.rowCount = 0 then src.nextFile files else src.nextWindow files r 0

def next (src : ScanSource) (c : ScanCursor) : Except Failure (Option Chunk) × ScanCursor :=
  match c.reader with
  | none => src.nextFile c.files
  | some r => if r.rowCount ≤ c.pos then src.nextFile c.files else src.nextWindow c.files r c.pos

end ScanSource

end DBPlayground.Format
