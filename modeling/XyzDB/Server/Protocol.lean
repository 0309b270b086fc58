import XyzDB.Engine.AggregateState
import XyzDB.Engine.Lid

/-!
# The wire protocol

A connection is a stream of bytes. A reader takes what it needs from the front of what is left
of it, and fails when the stream ends before that or when the bytes are not what they should
be. The source tells the two failures apart in its log only.
-/

namespace XyzDB.Server

open Talk Engine Option

lemma utf8_of_fromUtf8 {bytes : List UInt8} {s : Text} (h : fromUtf8 bytes = some s) :
    utf8 s = bytes := by
  obtain ⟨chars, hchars, rfl⟩ := map_eq_some_iff.mp h
  have hsome : (bytes.toByteArray.utf8Decode?).isSome := by rw [hchars]; rfl
  have henc := ByteArray.utf8Encode_get_utf8Decode? (h := hsome)
  simp only [hchars] at henc
  have hlist : ∀ l : List UInt8, l.toByteArray.data.toList = l := by
    simp
  have hdata := congrArg (fun b : ByteArray => b.data.toList) henc
  exact (hlist _).symm.trans (hdata.trans (hlist _))

/-- `u16::to_be_bytes` of a length. -/
def u16Bytes (n : ℕ) : List UInt8 := [UInt8.ofNat (n / 2 ^ 8), UInt8.ofNat n]

/-- `u32::to_be_bytes` of a length. -/
def u32Bytes (n : ℕ) : List UInt8 :=
  [UInt8.ofNat (n / 2 ^ 24), UInt8.ofNat (n / 2 ^ 16), UInt8.ofNat (n / 2 ^ 8), UInt8.ofNat n]

abbrev Reader := StateT (List UInt8) Option

def readU8 : Reader UInt8
  | [] => none
  | b :: rest => some (b, rest)

def readU16 : Reader ℕ := do
  let hi ← readU8
  let lo ← readU8
  return hi.toNat * 2 ^ 8 + lo.toNat

def readU32 : Reader ℕ := do
  let hi ← readU16
  let lo ← readU16
  return hi * 2 ^ 16 + lo

def readExact (n : ℕ) : Reader (List UInt8) := fun stream =>
  if n ≤ stream.length then some (stream.take n, stream.drop n) else none

/-- A field of `n` bytes that has to be UTF-8. -/
def readText (n : ℕ) : Reader Text := do
  let buf ← readExact n
  fromUtf8 buf

/-- A step that fails unless the condition holds. -/
def require (ok : Bool) : Reader Unit := if ok then pure () else failure

section

variable {α β : Type} {m : Reader α} {f : α → Reader β} {stream rest : List UInt8}

lemma reader_bind_eq_some {b : β} : (m >>= f) stream = some (b, rest) ↔
      ∃ a left, m stream = some (a, left) ∧ f a left = some (b, rest) := by
  change (m stream).bind (fun r => f r.1 r.2) = _ ↔ _
  rw [bind_eq_some_iff]
  constructor
  · rintro ⟨⟨a, left⟩, hm, hf⟩
    exact ⟨a, left, hm, hf⟩
  · rintro ⟨a, left, hm, hf⟩
    exact ⟨(a, left), hm, hf⟩

lemma readU16_eq_some {n : ℕ} (h : readU16 stream = some (n, rest)) :
    stream = u16Bytes n ++ rest := by
  match stream, h with
  | hi :: lo :: body, h =>
    cases h
    have hlo := lo.toNat_lt
    have hhi := hi.toNat_lt
    have hdiv : UInt8.ofNat ((hi.toNat * 2 ^ 8 + lo.toNat) / 2 ^ 8) = hi := by
      refine UInt8.toNat_inj.mp ?_
      rw [UInt8.toNat_ofNat']
      omega
    have hmod : UInt8.ofNat (hi.toNat * 2 ^ 8 + lo.toNat) = lo := by
      refine UInt8.toNat_inj.mp ?_
      rw [UInt8.toNat_ofNat']
      omega
    rw [u16Bytes, hdiv, hmod]
    rfl

lemma require_eq_some {ok : Bool} {u : Unit} (h : require ok stream = some (u, rest)) :
    ok = true ∧ rest = stream := by
  unfold require at h
  split at h
  · next hok => exact ⟨hok, (congrArg Prod.snd (some.inj h)).symm⟩
  · cases h

lemma readText_eq_some {n : ℕ} {s : Text} (h : readText n stream = some (s, rest)) :
    (utf8 s).length = n ∧ stream = utf8 s ++ rest := by
  obtain ⟨buf, left, hbuf, h⟩ := reader_bind_eq_some.mp h
  unfold readExact at hbuf
  split at hbuf <;> cases hbuf
  next hlen =>
  obtain ⟨text, htext, h⟩ := bind_eq_some_iff.mp h
  cases h
  rw [utf8_of_fromUtf8 htext]
  exact ⟨List.length_take_of_le hlen, (List.take_append_drop n stream).symm⟩

end

def protocolV1 : UInt8 := 1

def protocolV2 : UInt8 := 2

def protocolV3 : UInt8 := 3

def protocolV4 : UInt8 := 4

def authMagic : UInt8 := 0x41

def maxAuthTokenLen : ℕ := 4096

def formatText : UInt8 := 0

def formatJsonChunked : UInt8 := 3

def formatBinaryChunked : UInt8 := 4

def statusOk : UInt8 := 0

def statusError : UInt8 := 1

def maxFrameSize : ℕ := 16 * 1024 * 1024

def v3FrameEnd : UInt8 := 0

structure Request where
  query : Text
  format : UInt8
  /-- The bytes of the bound parameters. -/
  paramsJson : Option (List UInt8)

/-- The format byte of a version, and whether parameters follow the query. -/
def readFormat (version : UInt8) : Reader (UInt8 × Bool) := do
  if version = protocolV2 then
    let format ← readU8
    return (format, false)
  else if version = protocolV4 then
    let format ← readU8
    return (format, true)
  else if version = protocolV1 then
    return (formatText, false)
  else
    failure

def readParams (hasParams : Bool) : Reader (Option (List UInt8)) := do
  if hasParams then
    let len ← readU32
    require (len ≤ maxFrameSize)
    some <$> readExact len
  else
    return none

/-- `read_first_v1v2_request`: the length of the query is not bounded here. -/
def readFirstRequest (version : UInt8) : Reader Request := do
  let (format, hasParams) ← readFormat version
  let length ← readU32
  let query ← readText length
  let params ← readParams hasParams
  return ⟨query, format, params⟩

def readRequest : Reader Request := do
  let version ← readU8
  let (format, hasParams) ← readFormat version
  let length ← readU32
  require (length ≤ maxFrameSize)
  let query ← readText length
  let params ← readParams hasParams
  return ⟨query, format, params⟩

/-- What comes before the query: the format, whether parameters follow, the query's length. -/
def requestHead (version : UInt8) : Reader ((UInt8 × Bool) × ℕ) := do
  let format ← readFormat version
  let length ← readU32
  return (format, length)

/-- The sizes of the buffers that are asked for while the rest of a request is read, also when
that fails; `bounded` as in `read_request`, which refuses a long query before its buffer. -/
def requestBuffers (bounded : Bool) (version : UInt8) (stream : List UInt8) : List ℕ :=
  match requestHead version stream with
  | none => []
  | some (((_, hasParams), length), stream) =>
    if bounded && decide (maxFrameSize < length) then []
    else length :: match (do let _ ← readText length; readU32 : Reader ℕ) stream with
      | some (len, _) => if hasParams && decide (len ≤ maxFrameSize) then [len] else []
      | none => []

section

variable {version : UInt8} {stream : List UInt8}

/-- A query within the limit is read alike by both readers. -/
lemma readFirstRequest_eq (h : ∀ format length rest,
      requestHead version stream = some ((format, length), rest) → length ≤ maxFrameSize) :
    readFirstRequest version stream = readRequest (version :: stream) := by
  change (readFormat version stream).bind _ = (readFormat version stream).bind _
  cases hformat : readFormat version stream with
  | none => rfl
  | some format =>
    change (readU32 format.2).bind _ = (readU32 format.2).bind _
    cases hlength : readU32 format.2 with
    | none => rfl
    | some length =>
      have hle := h format.1 length.1 length.2 (reader_bind_eq_some.mpr
        ⟨_, _, hformat, reader_bind_eq_some.mpr ⟨_, _, hlength, rfl⟩⟩)
      change _ = (require (decide (length.1 ≤ maxFrameSize)) length.2).bind _
      rw [decide_eq_true hle]
      rfl

lemma requestBuffers_le (h : ∀ format length rest,
      requestHead version stream = some ((format, length), rest) → length ≤ maxFrameSize)
    {bounded : Bool} {n : ℕ} (hn : n ∈ requestBuffers bounded version stream) :
      n ≤ maxFrameSize := by
  unfold requestBuffers at hn
  split at hn
  · cases hn
  · next hhead =>
    have hle := h _ _ _ hhead
    split at hn
    · cases hn
    · rcases List.mem_cons.mp hn with rfl | hn
      · exact hle
      · split at hn
        · split at hn
          · next hlen =>
            rw [List.mem_singleton.mp hn]
            simpa using (Bool.and_eq_true_iff.mp hlen).2
          · cases hn
        · cases hn

variable (version stream)

/-- **The first request** is read as every later one, and no buffer is beyond the limit, exactly
if the length of the query is within it. -/
theorem first_request_read_alike :
    (readFirstRequest version stream = readRequest (version :: stream) ∧
      ∀ bounded, ∀ n ∈ requestBuffers bounded version stream, n ≤ maxFrameSize) ↔
    ∀ format length rest, requestHead version stream = some ((format, length), rest) →
      length ≤ maxFrameSize := by
  refine ⟨fun h format length rest hhead => h.2 false length ?_,
    fun h => ⟨readFirstRequest_eq h, fun _ _ => requestBuffers_le h⟩⟩
  -- the first reader asks for the buffer of the query, however long
  rw [requestBuffers, hhead]
  exact List.mem_cons_self

end

/-- A query of two bytes. -/
example : (readFirstRequest protocolV1 (u32Bytes 2 ++ [0x68, 0x69])).map (·.1.query) =
    some ['h', 'i'] := by decide +kernel

theorem first_request_unbounded :
    2 ^ 32 - 1 ∈ requestBuffers false protocolV1 [255, 255, 255, 255] ∧
      maxFrameSize < 2 ^ 32 - 1 := by
  decide

/-- `read_auth_frame_body`: the presented token. -/
def readAuthFrameBody : Reader Text := do
  let len ← readU16
  require (len ≤ maxAuthTokenLen)
  readText len

structure V3Header where
  flags : UInt8
  lobeName : Text

def readV3Header : Reader V3Header := do
  let flags ← readU8
  let nameLen ← readU16
  let lobeName ← readText nameLen
  return ⟨flags, lobeName⟩

structure V3BatchFrame where
  recordCount : ℕ
  payload : List UInt8

/-- `read_v3_batch_frame`; `none` is the end of the load. -/
def readV3BatchFrame : Reader (Option V3BatchFrame) := do
  let frameType ← readU8
  if frameType = v3FrameEnd then
    return none
  else
    let recordCount ← readU32
    let payloadLen ← readU32
    require (payloadLen ≤ maxFrameSize)
    let payload ← readExact payloadLen
    return some ⟨recordCount, payload⟩

/-- `write_response_bytes`. -/
def responseBytes (status : UInt8) (payload : List UInt8) : List UInt8 :=
  status :: (u32Bytes payload.length ++ payload)

/-- An error frame with a fixed text. -/
def errorFrame (message : String) : List UInt8 := responseBytes statusError (utf8 message.toList)

def isChunkedFormat (format : UInt8) : Bool :=
  format == formatJsonChunked || format == formatBinaryChunked

/-- **The auth frame.** A body that is read is the length of the token and the token. -/
theorem stream_of_readAuthFrameBody {stream rest : List UInt8} {presented : Text}
    (h : readAuthFrameBody stream = some (presented, rest)) :
    stream = u16Bytes (utf8 presented).length ++ (utf8 presented ++ rest) := by
  obtain ⟨len, left, hlen, h⟩ := reader_bind_eq_some.mp h
  obtain ⟨u, left', hle, htext⟩ := reader_bind_eq_some.mp h
  obtain ⟨-, rfl⟩ := require_eq_some hle
  obtain ⟨rfl, rfl⟩ := readText_eq_some htext
  exact readU16_eq_some hlen

end XyzDB.Server
