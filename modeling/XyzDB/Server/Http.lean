import XyzDB.Server.Protocol

/-!
# The HTTP surface

The port of the wire protocol also answers HTTP: a first byte that begins a method selects it.
One request is read and answered. The routes that show something want the token, which may come
in a header, in a cookie or in the query of the path.

`HttpPresents` says where a request can carry a token. The gate lets through only requests that
carry the expected one (`carries_of_ok`).
-/

namespace XyzDB.Server

open Talk Engine List Option

/-- `is_http_method_first_byte`: the letters G, H, P, O, D, T, C. -/
def isHttpMethodFirstByte (b : UInt8) : Bool :=
  b == 0x47 || b == 0x48 || b == 0x50 || b == 0x4F || b == 0x44 || b == 0x54 || b == 0x43

def maxRequestBytes : ℕ := 8 * 1024

inductive ReadErr where
  | timeout | tooLarge | io

/-- The end of the headers is in the buffer. -/
def findDoubleCrlf (buf : List UInt8) : Bool :=
  decide ([13, 10, 13, 10] <:+: buf) || decide ([10, 10] <:+: buf)

/-- The loop of `read_request_head`. `reads` has how many bytes each read of the socket gets;
when there are none left the time is over. -/
def readHead (buf stream : List UInt8) : List ℕ → Except ReadErr (List UInt8)
  | [] => .error .timeout
  | n :: reads =>
    let n := max 1 (min n 512)
    if stream = [] then .error .io
    else
      let buf := buf ++ stream.take n
      if maxRequestBytes < buf.length then .error .tooLarge
      else if findDoubleCrlf buf then .ok buf
      else readHead buf (stream.drop n) reads

structure HttpRequest where
  method : Text
  path : Text
  headers : List (Text × Text)

def eqIgnoreAsciiCase (s t : Text) : Bool := s.map Char.toLower == t.map Char.toLower

/-- `HttpRequest::header`: the first one of the name. -/
def HttpRequest.header (req : HttpRequest) (name : String) : Option Text :=
  (req.headers.find? fun h => eqIgnoreAsciiCase h.1 name.toList).map Prod.snd

/-- `trim_end_matches('\r')`. -/
def trimCr (line : Text) : Text := line.rdropWhile (· == '\r')

section

variable (std : CharTable)

/-- One header line; a line without a colon is passed over. -/
def parseHeader (line : Text) : Option (Text × Text) :=
  if ':' ∈ line then
    some (trim std (line.takeWhile (· != ':')), trim std (line.dropWhile (· != ':')).tail)
  else none

/-- `parse_request`. The third part of the request line is only asked to be there. -/
def parseRequest (raw : List UInt8) : Option HttpRequest := do
  let text ← fromUtf8 raw
  match text.splitOn '\n' with
  | [] => none
  | requestLine :: lines =>
    match (trimCr requestLine).splitOn ' ' with
    | method :: path :: _ :: _ =>
      if method = [] ∨ path = [] then none
      else
        let lines := (lines.map trimCr).takeWhile (· != [])
        some ⟨method, path, lines.filterMap (parseHeader std)⟩
    | _ => none

/-- A continuation byte of UTF-8. -/
def isContinuation (b : UInt8) : Bool := 0x80 ≤ b && b < 0xC0

/-- What a percent sign and the bytes behind it stand for. -/
inductive Escape where
  | char (c : Char)
  | plain
  | panics

/-- The two bytes behind a percent sign are cut out of the text, which panics when the cut ends
inside a character. -/
def readEscape : List UInt8 → Escape
  | a :: b :: rest =>
    if rest.head?.any isContinuation then .panics
    else
      match Lid.fromHex 8 [Char.ofNat a.toNat, Char.ofNat b.toNat] with
      | some v => .char (Char.ofNat v)
      | none => .plain
  | _ => .plain

/-- The loop of `url_decode`, which has `skip` bytes behind it already. -/
def urlDecodeLoop : ℕ → List UInt8 → Option Text
  | _, [] => some []
  | skip + 1, _ :: rest => urlDecodeLoop skip rest
  | 0, c :: rest =>
    if c = 0x2B then (' ' :: ·) <$> urlDecodeLoop 0 rest
    else if c = 0x25 then
      match readEscape rest with
      | .char v => (v :: ·) <$> urlDecodeLoop 2 rest
      | .plain => ('%' :: ·) <$> urlDecodeLoop 0 rest
      | .panics => none
    else (Char.ofNat c.toNat :: ·) <$> urlDecodeLoop 0 rest

/-- `url_decode`; `none` is a panic. Every byte becomes a character. -/
def urlDecode (s : Text) : Option Text := urlDecodeLoop 0 (utf8 s)

def bearer : Text := "Bearer ".toList

def cookieToken : Text := "xyzdb_token=".toList

def queryToken : Text := "token=".toList

def stripPrefix (start s : Text) : Option Text :=
  if start.isPrefixOf s then some (s.drop start.length) else none

/-- The token of the cookies of a header. -/
def cookieOf (header : Text) : Option Text :=
  (header.splitOn ';').findSome? fun kv => stripPrefix cookieToken (trim std kv)

/-- `extract_token`; the outer `none` is a panic of `url_decode`. -/
def extractToken (req : HttpRequest) (query : Text) : Option (Option Text) :=
  match (req.header "Authorization").bind (stripPrefix bearer) with
  | some t => some (some (trim std t))
  | none =>
    match (req.header "Cookie").bind (cookieOf std) with
    | some t => some (some t)
    | none =>
      match (query.splitOn '&').findSome? (stripPrefix queryToken) with
      | some t => (urlDecode t).map some
      | none => some none

def constantTimeEq (a b : List UInt8) : Bool :=
  a.length == b.length && (List.zipWith (· ^^^ ·) a b).foldl (· ||| ·) 0 == 0

def buildResponse (status : ℕ) (reason contentType : String) (body : List UInt8)
    (extraHeaders : String) : List UInt8 :=
  utf8 ("HTTP/1.1 ".toList ++ (toString status).toList ++ ' ' :: reason.toList ++
    "\r\nContent-Type: ".toList ++ contentType.toList ++
    "\r\nContent-Length: ".toList ++ (toString body.length).toList ++
    "\r\nConnection: close\r\nServer: xyzdb\r\n".toList ++ extraHeaders.toList ++
    "\r\n".toList) ++ body

/-- `write_simple`. -/
def simpleResponse (status : ℕ) (reason body : String) : List UInt8 :=
  buildResponse status reason "text/plain" (utf8 body.toList) ""

def unauthorized : List UInt8 :=
  buildResponse 401 "Unauthorized" "text/plain; charset=utf-8" (utf8 "401 unauthorized\n".toList)
    "WWW-Authenticate: Bearer realm=\"xyzdb operator\"\r\n"

/-- What `http_token_ok` comes to. -/
inductive TokenCheck where
  | ok | denied | panics
  deriving DecidableEq

def httpTokenOk (expected : Option Text) (req : HttpRequest) (query : Text) : TokenCheck :=
  match expected with
  | none => .ok
  | some expected =>
    match extractToken std req query with
    | none => .panics
    | some none => .denied
    | some (some t) => if constantTimeEq (utf8 t) (utf8 expected) then .ok else .denied

/-- The pages that the token opens. -/
structure Pages where
  operatorHtml : List UInt8
  /-- The serialised snapshot of the statistics. -/
  stats : List UInt8

/-- The path in front of the question mark, and the query behind it. -/
def splitQuery (path : Text) : Text × Text :=
  (path.takeWhile (· != '?'), (path.dropWhile (· != '?')).tail)

/-- A page behind the gate. -/
def guarded (check : TokenCheck) (page : List UInt8) : List UInt8 :=
  match check with
  | .ok => page
  | .denied => unauthorized
  | .panics => []

/-- `handle_http_request`: the bytes that are sent. -/
def handleHttpRequest (expected : Option Text) (pages : Pages) (reads : List ℕ)
    (first : UInt8) (stream : List UInt8) : List UInt8 :=
  match readHead [first] stream reads with
  | .error .timeout | .error .io => []
  | .error .tooLarge => simpleResponse 431 "Request Header Fields Too Large" "431 request too large"
  | .ok raw =>
    match parseRequest std raw with
    | none => simpleResponse 400 "Bad Request" "400 bad request"
    | some req =>
      if req.method ≠ "GET".toList ∧ req.method ≠ "HEAD".toList then
        simpleResponse 405 "Method Not Allowed" "405 method not allowed"
      else
        let (route, query) := splitQuery req.path
        let check := httpTokenOk std expected req query
        if route = "/".toList then
          guarded check (buildResponse 200 "OK" "text/html; charset=utf-8" pages.operatorHtml
            ("Cache-Control: no-cache, no-store, must-revalidate\r\n" ++
              "X-Content-Type-Options: nosniff\r\nReferrer-Policy: no-referrer\r\n"))
        else if route = "/stats".toList then
          guarded check (buildResponse 200 "OK" "application/json; charset=utf-8" pages.stats "")
        else simpleResponse 404 "Not Found" "404 not found"

/-- The places of a request that can carry a token, in any header or parameter of the name. -/
def HttpRequest.Carries (req : HttpRequest) (token : Text) : Prop :=
  (∃ h ∈ req.headers, eqIgnoreAsciiCase h.1 "Authorization".toList = true ∧
      ∃ t, h.2 = bearer ++ t ∧ trim std t = token) ∨
    (∃ h ∈ req.headers, eqIgnoreAsciiCase h.1 "Cookie".toList = true ∧
      ∃ kv ∈ h.2.splitOn ';', trim std kv = cookieToken ++ token) ∨
    ∃ kv ∈ (splitQuery req.path).2.splitOn '&', ∃ t, kv = queryToken ++ t ∧ urlDecode t = some token

/-- The bytes begin with a request that carries the token. -/
def HttpPresents (token : Text) (stream : List UInt8) : Prop :=
  ∃ head, head <+: stream ∧ ∃ req, parseRequest std head = some req ∧ req.Carries std token

end

section

variable {std : CharTable} {req : HttpRequest} {token : Text}

lemma constantTimeEq_iff {a b : List UInt8} : constantTimeEq a b = true ↔ a = b := by
  -- the differences are collected by a disjunction, which never loses one
  have hfold : ∀ (l : List UInt8) (d : UInt8),
      l.foldl (· ||| ·) d = 0 ↔ d = 0 ∧ ∀ x ∈ l, x = 0 := by
    intro l
    induction l with
    | nil => simp
    | cons x l ih =>
      intro d
      rw [foldl_cons, ih, UInt8.or_eq_zero_iff, forall_mem_cons, and_assoc]
  rw [constantTimeEq, Bool.and_eq_true, beq_iff_eq, beq_iff_eq, hfold]
  constructor
  · rintro ⟨hlen, -, hzero⟩
    refine ext_getElem hlen fun i ha hb => ?_
    have hx := hzero (a[i] ^^^ b[i]) (mem_iff_getElem.mpr
      ⟨i, by rw [length_zipWith]; omega, by rw [getElem_zipWith]⟩)
    exact UInt8.xor_eq_zero_iff.mp hx
  · rintro rfl
    refine ⟨rfl, rfl, fun x hx => ?_⟩
    obtain ⟨i, hi, rfl⟩ := mem_iff_getElem.mp hx
    rw [getElem_zipWith, UInt8.xor_self]

lemma stripPrefix_eq_some {start s t : Text} (h : stripPrefix start s = some t) :
    s = start ++ t := by
  unfold stripPrefix at h
  split at h <;> cases h
  next hpre =>
  obtain ⟨t, rfl⟩ := isPrefixOf_iff_prefix.mp hpre
  rw [drop_left]

lemma HttpRequest.mem_of_header {name : String} {v : Text} (h : req.header name = some v) :
    ∃ kv ∈ req.headers, eqIgnoreAsciiCase kv.1 name.toList = true ∧ kv.2 = v := by
  obtain ⟨kv, hfind, rfl⟩ := map_eq_some_iff.mp h
  have hname := find?_some hfind
  exact ⟨kv, mem_of_find?_eq_some hfind, hname, rfl⟩

lemma carries_of_extractToken
    (h : extractToken std req (splitQuery req.path).2 = some (some token)) :
    req.Carries std token := by
  unfold extractToken at h
  split at h
  · next t ht =>
    obtain ⟨v, hv, ht⟩ := bind_eq_some_iff.mp ht
    obtain ⟨kv, hkv, hname, rfl⟩ := HttpRequest.mem_of_header hv
    cases h
    exact .inl ⟨kv, hkv, hname, t, stripPrefix_eq_some ht, rfl⟩
  · split at h
    · next t ht =>
      obtain ⟨v, hv, ht⟩ := bind_eq_some_iff.mp ht
      obtain ⟨kv, hkv, hname, rfl⟩ := HttpRequest.mem_of_header hv
      obtain ⟨item, hitem, ht⟩ := exists_of_findSome?_eq_some ht
      cases h
      exact .inr (.inl ⟨kv, hkv, hname, item, hitem, stripPrefix_eq_some ht⟩)
    · split at h
      · next t ht =>
        obtain ⟨item, hitem, ht⟩ := exists_of_findSome?_eq_some ht
        obtain ⟨decoded, hdecoded, h⟩ := map_eq_some_iff.mp h
        cases h
        exact .inr (.inr ⟨item, hitem, t, stripPrefix_eq_some ht, hdecoded⟩)
      · cases h

lemma carries_of_ok (h : httpTokenOk std (some token) req (splitQuery req.path).2 = .ok) :
    req.Carries std token := by
  unfold httpTokenOk at h
  dsimp only at h
  split at h
  · cases h
  · cases h
  · next t ht =>
    split at h
    · next heq =>
      obtain rfl := utf8_inj (constantTimeEq_iff.mp heq)
      exact carries_of_extractToken ht
    · cases h

lemma guarded_of_ne {check : TokenCheck} (h : check ≠ .ok) :
    ∃ sent, ∀ page, guarded check page = sent := by
  cases check with
  | ok => exact absurd rfl h
  | denied => exact ⟨unauthorized, fun _ => rfl⟩
  | panics => exact ⟨[], fun _ => rfl⟩

lemma prefix_of_readHead {buf stream raw : List UInt8} {reads : List ℕ}
    (h : readHead buf stream reads = .ok raw) : raw <+: buf ++ stream := by
  induction reads generalizing buf stream with
  | nil => cases h
  | cons n reads ih =>
    rw [readHead] at h
    dsimp only at h
    split at h
    · cases h
    · split at h
      · cases h
      · have hcut : buf ++ stream = (buf ++ stream.take (max 1 (min n 512))) ++
            stream.drop (max 1 (min n 512)) := by
          rw [append_assoc, take_append_drop]
        split at h
        · cases h
          exact ⟨_, hcut.symm⟩
        · exact hcut ▸ ih h

/-- **The HTTP gate.** Without the token the answer does not depend on the pages. -/
theorem handleHttpRequest_of_not_presents {reads : List ℕ} {first : UInt8} {stream : List UInt8}
    (h : ¬ HttpPresents std token (first :: stream)) (pages pages' : Pages) :
    handleHttpRequest std (some token) pages reads first stream =
      handleHttpRequest std (some token) pages' reads first stream := by
  unfold handleHttpRequest
  split
  · rfl
  · rfl
  · rfl
  · next raw hraw =>
    split
    · rfl
    · next req hreq =>
      have hdenied : httpTokenOk std (some token) req (splitQuery req.path).2 ≠ .ok :=
        fun hok => h ⟨raw, prefix_of_readHead hraw, req, hreq, carries_of_ok hok⟩
      -- the pages stand behind the check only
      obtain ⟨sent, hsent⟩ := guarded_of_ne hdenied
      simp only [hsent]

end

section

/-- The bytes in a percent encoding: each stands for itself or is two hexadecimal digits. -/
inductive PercentEncodes : List UInt8 → Text → Prop
  | nil : PercentEncodes [] []
  | keep {c : Char} {bytes : List UInt8} {s : Text} (hc : c.toNat ≤ 127 ∧ c ≠ '%' ∧ c ≠ '+')
      (hs : PercentEncodes bytes s) : PercentEncodes (c.toNat.toUInt8 :: bytes) (c :: s)
  | escape {b : UInt8} {h l : Char} {bytes : List UInt8} {s : Text}
      (hh : Lid.hexValue h = some (b.toNat / 16)) (hl : Lid.hexValue l = some (b.toNat % 16))
      (hs : PercentEncodes bytes s) : PercentEncodes (b :: bytes) ('%' :: h :: l :: s)

def IsAscii (s : Text) : Prop := ∀ c ∈ s, c.toNat ≤ 127

variable {c : Char} {s : Text}

lemma byte_ascii (hc : c.toNat ≤ 127) : c.toNat.toUInt8.toNat = c.toNat :=
  Nat.mod_eq_of_lt (by omega)

lemma ofNat_byte (hc : c.toNat ≤ 127) : Char.ofNat c.toNat.toUInt8.toNat = c := by
  rw [byte_ascii hc, Char.ofNat_toNat]

lemma utf8_cons_ascii (hc : c.toNat ≤ 127) : utf8 (c :: s) = c.toNat.toUInt8 :: utf8 s := by
  rw [utf8, flatMap_cons, String.utf8EncodeChar_eq_singleton (Char.utf8Size_eq_one_iff.mpr hc)]
  rfl

lemma utf8_ascii (h : IsAscii s) : utf8 s = s.map (·.toNat.toUInt8) := by
  induction s with
  | nil => rfl
  | cons c s ih =>
    rw [utf8_cons_ascii (h c mem_cons_self), ih fun d hd => h d (.tail _ hd), map_cons]

lemma utf8_map_ascii (h : IsAscii s) : (utf8 s).map (Char.ofNat ·.toNat) = s := by
  rw [utf8_ascii h, List.map_map]
  exact (map_congr_left fun c hc => ofNat_byte (h c hc)).trans (List.map_id s)

lemma isContinuation_ascii (h : IsAscii s) : ∀ b ∈ utf8 s, isContinuation b = false := by
  rw [utf8_ascii h, List.forall_mem_map]
  intro c hc
  simp only [isContinuation, UInt8.le_iff_toNat_le, byte_ascii (h c hc)]
  grind [h c hc]

lemma head_isContinuation {bytes : List UInt8} (h : ∀ b ∈ bytes, isContinuation b = false) :
    bytes.head?.any isContinuation = false := by
  cases bytes with
  | nil => rfl
  | cons b bytes => exact h b mem_cons_self

/-- A percent sign has two bytes behind it and then the middle of a character. -/
def CutsCharacter (bytes : List UInt8) : Prop :=
  ∃ a b c, [0x25, a, b, c] <:+: bytes ∧ isContinuation c = true

lemma cutsCharacter_cons {d : UInt8} {bytes : List UInt8} : CutsCharacter (d :: bytes) ↔
    (d = 0x25 ∧ ∃ a b c more, bytes = a :: b :: c :: more ∧ isContinuation c = true) ∨
      CutsCharacter bytes := by
  simp only [CutsCharacter, infix_cons_iff, cons_prefix_cons, or_and_right, exists_or]
  refine or_congr_left ⟨?_, ?_⟩
  · rintro ⟨a, b, c, ⟨rfl, more, rfl⟩, hc⟩
    exact ⟨rfl, a, b, c, more, rfl, hc⟩
  · rintro ⟨rfl, a, b, c, more, rfl, hc⟩
    exact ⟨a, b, c, ⟨rfl, more, rfl⟩, hc⟩

/-- The digits of an escape are no percent signs. -/
lemma ne_percent_of_fromHex {a b : UInt8} {v : ℕ}
    (h : Lid.fromHex 8 [Char.ofNat a.toNat, Char.ofNat b.toNat] = some v) :
      a ≠ 0x25 ∧ b ≠ 0x25 := by
  have hpercent : ∀ acc, Lid.hexNumber acc ['%'] = none := fun _ => rfl
  constructor
  · rintro rfl
    have hdigit : Lid.hexNumber 0 ['%', Char.ofNat b.toNat] = none := rfl
    simp [Lid.fromHex, hdigit] at h
  · rintro rfl
    change Lid.fromHex 8 [Char.ofNat a.toNat, '%'] = some v at h
    by_cases hplus : Char.ofNat a.toNat = '+'
    · simp [Lid.fromHex, hplus, hpercent] at h
    · cases hvalue : Lid.hexValue (Char.ofNat a.toNat) <;>
        simp [Lid.fromHex, hplus, Lid.hexNumber, hvalue, show Lid.hexValue '%' = none from rfl] at h

lemma readEscape_eq_panics {rest : List UInt8} : readEscape rest = .panics ↔
    ∃ a b c more, rest = a :: b :: c :: more ∧ isContinuation c = true := by
  rcases rest with - | ⟨a, - | ⟨b, - | ⟨c, more⟩⟩⟩
  · simp [readEscape]
  · simp [readEscape]
  · simp only [readEscape, head?_nil, Option.any_none, Bool.false_eq_true, if_false]
    split <;> simp
  · rw [readEscape]
    split_ifs with hc
    · exact iff_of_true rfl ⟨a, b, c, more, rfl, hc⟩
    · have hc : ¬ isContinuation c = true := hc
      split <;> simp [hc]

lemma cutsCharacter_percent {rest : List UInt8} : CutsCharacter (0x25 :: rest) ↔
    readEscape rest = .panics ∨ CutsCharacter rest := by
  rw [cutsCharacter_cons, readEscape_eq_panics, and_iff_right rfl]

lemma cutsCharacter_escape {rest : List UInt8} {v : Char} (h : readEscape rest = .char v) :
    CutsCharacter rest ↔ CutsCharacter (rest.drop 2) := by
  rcases rest with - | ⟨a, - | ⟨b, rest⟩⟩
  · cases h
  · cases h
  · rw [readEscape] at h
    split_ifs at h
    split at h
    · next hhex =>
      obtain ⟨ha, hb⟩ := ne_percent_of_fromHex hhex
      rw [cutsCharacter_cons, or_iff_right fun hc => ha hc.1, cutsCharacter_cons,
        or_iff_right fun hc => hb hc.1]
      rfl
    · cases h

lemma isSome_cons_map (c : Char) (r : Option Text) : ((c :: ·) <$> r).isSome = r.isSome :=
  Option.isSome_map

/-- **Where decoding panics.** Every percent sign is come to, since no escape that is read has one
in it. -/
theorem isSome_urlDecodeLoop {skip : ℕ} {bytes : List UInt8} :
    (urlDecodeLoop skip bytes).isSome ↔ ¬ CutsCharacter (bytes.drop skip) := by
  fun_induction urlDecodeLoop skip bytes with
  | case1 skip =>
    rw [drop_nil]
    refine iff_of_true rfl ?_
    rintro ⟨a, b, c, h, -⟩
    simp at h
  | case2 skip b rest ih => exact ih
  | case3 rest ih =>
    rw [isSome_cons_map]
    refine ih.trans (not_congr ?_)
    rw [drop_zero, drop_zero, cutsCharacter_cons, or_iff_right (by simp)]
  | case4 rest v hescape _ ih =>
    rw [isSome_cons_map]
    refine ih.trans (not_congr ?_)
    rw [drop_zero, cutsCharacter_percent, hescape, or_iff_right (by simp),
      cutsCharacter_escape hescape]
  | case5 rest hescape _ ih =>
    rw [isSome_cons_map]
    refine ih.trans (not_congr ?_)
    rw [drop_zero, drop_zero, cutsCharacter_percent, hescape, or_iff_right (by simp)]
  | case6 rest hescape =>
    rw [drop_zero, cutsCharacter_percent, hescape]
    simp
  | case7 c rest hplus hpercent ih =>
    rw [isSome_cons_map]
    refine ih.trans (not_congr ?_)
    rw [drop_zero, drop_zero, cutsCharacter_cons, or_iff_right fun hc => hpercent hc.1]

lemma PercentEncodes.ascii {bytes : List UInt8} {s : Text} (h : PercentEncodes bytes s) :
    IsAscii s := by
  have hdigit {c : Char} {d : ℕ} (hc : Lid.hexValue c = some d) : c.toNat ≤ 127 := by
    simp only [Lid.hexValue, Char.le_def, UInt32.le_iff_toNat_le] at hc
    have : c.toNat = c.val.toNat := rfl
    grind
  induction h with
  | nil => exact fun _ h => absurd h not_mem_nil
  | keep hc _ ih => exact forall_mem_cons.mpr ⟨hc.1, ih⟩
  | escape hh hl _ ih =>
    exact forall_mem_cons.mpr ⟨by decide, forall_mem_cons.mpr
      ⟨hdigit hh, forall_mem_cons.mpr ⟨hdigit hl, ih⟩⟩⟩

lemma readEscape_digits {b : UInt8} {h l : Char} {s : Text}
    (hh : Lid.hexValue h = some (b.toNat / 16)) (hl : Lid.hexValue l = some (b.toNat % 16))
    (hs : IsAscii (h :: l :: s)) :
    readEscape (utf8 (h :: l :: s)) = .char (Char.ofNat b.toNat) := by
  obtain ⟨hh', hl', hs⟩ := by simpa only [IsAscii, forall_mem_cons] using hs
  have hplus : ¬ h = '+' := by
    rintro rfl
    cases hh
  have hvalue : Lid.fromHex 8 [h, l] = some b.toNat := by
    simp [Lid.fromHex, hplus, Lid.hexNumber, hh, hl, Nat.div_add_mod', b.toNat_lt]
  rw [utf8_cons_ascii hh', utf8_cons_ascii hl', readEscape,
    head_isContinuation (isContinuation_ascii hs), ofNat_byte hh', ofNat_byte hl', hvalue]
  rfl

lemma urlDecode_percent {bytes : List UInt8} {s : Text} (h : PercentEncodes bytes s) :
    urlDecode s = some (bytes.map (Char.ofNat ·.toNat)) := by
  unfold urlDecode
  induction h with
  | nil => rfl
  | @keep c bytes s hc hs ih =>
    have hne {d : UInt8} (hd : c ≠ Char.ofNat d.toNat) : c.toNat.toUInt8 ≠ d := fun h =>
      hd (by rw [← h, ofNat_byte hc.1])
    rw [utf8_cons_ascii hc.1, urlDecodeLoop, if_neg (hne (d := 0x2B) hc.2.2),
      if_neg (hne (d := 0x25) hc.2.1), ih]
    rfl
  | @escape b h l bytes s hh hl hs ih =>
    have hascii := (PercentEncodes.escape hh hl hs).ascii
    obtain ⟨-, hh', hl', -⟩ := by simpa only [IsAscii, forall_mem_cons] using hascii
    rw [utf8_cons_ascii (by decide), urlDecodeLoop,
      readEscape_digits hh hl fun c hc => hascii c (.tail _ hc), utf8_cons_ascii hh',
      utf8_cons_ascii hl']
    exact congrArg (Option.map (Char.ofNat b.toNat :: ·)) ih

lemma stripPrefix_append (start t : Text) : stripPrefix start (start ++ t) = some t := by
  rw [stripPrefix, if_pos ( isPrefixOf_iff_prefix.mpr ⟨t, rfl⟩), drop_left]

/-- A header has the token as the first cookie of the name: cookies of other names, blanks, the
name and the token, and then the end of the header or of the cookie. -/
def CookieCarries (std : CharTable) (hdr t : Text) : Prop :=
  ∃ (front : List Text) (blank tail : Text),
    hdr = front.flatMap (· ++ [';']) ++ (blank ++ (cookieToken ++ (t ++ tail))) ∧
    (∀ x ∈ front, ';' ∉ x ∧ stripPrefix cookieToken (trim std x) = none) ∧
    (∀ c ∈ blank, std.isWhitespace c = true) ∧ (tail = [] ∨ tail.head? = some ';')

/-- The parameter that `extract_token` decodes. -/
def tokenParam (std : CharTable) (req : HttpRequest) (query : Text) : Option Text :=
  if ((req.header "Authorization").bind (stripPrefix bearer)).isSome ∨
      ((req.header "Cookie").bind (cookieOf std)).isSome then none
  else (query.splitOn '&').findSome? (stripPrefix queryToken)

section

variable (std : CharTable)

lemma cookieToken_eq : cookieToken = 'x' :: ("yzdb_token".toList ++ ['=']) := by decide

/-- The name of a cookie is not trimmed away. -/
lemma trimEnd_cookie (t : Text) :
    trimEnd std (cookieToken ++ t) = cookieToken ++ trimEnd std t := by
  have heq : std.isWhitespace '=' = false := std.isWhitespace_ascii _ (by decide)
  have hname : cookieToken.reverse.dropWhile std.isWhitespace = cookieToken.reverse := by
    rw [cookieToken_eq, reverse_cons, reverse_append]
    exact dropWhile_cons_of_neg (by simp [heq])
  unfold trimEnd rdropWhile
  rw [reverse_append, dropWhile_append, hname]
  split
  · next h => rw [isEmpty_iff.mp h, reverse_reverse, reverse_nil, append_nil]
  · rw [reverse_append, reverse_reverse]

lemma trim_cookie {blank : Text} (hblank : ∀ c ∈ blank, std.isWhitespace c = true) (t : Text) :
    trim std (blank ++ (cookieToken ++ t)) = cookieToken ++ trimEnd std t := by
  have hx : std.isWhitespace 'x' = false := std.isWhitespace_ascii _ (by decide)
  rw [trim, trimStart, dropWhile_append_of_pos hblank, ← trimEnd_cookie]
  refine congrArg _ ?_
  rw [cookieToken_eq]
  exact dropWhile_cons_of_neg (by simp [hx])

lemma not_mem_semicolon_blank {blank : Text} (hblank : ∀ c ∈ blank, std.isWhitespace c = true) :
    ';' ∉ blank := fun h => by
  have := hblank _ h
  rw [std.isWhitespace_ascii _ (by decide)] at this
  exact absurd this (by decide)

lemma splitOn_flatMap_sep {front : List Text} (h : ∀ x ∈ front, ';' ∉ x) (rest : Text) :
    (front.flatMap (· ++ [';']) ++ rest).splitOn ';' = front ++ rest.splitOn ';' := by
  induction front with
  | nil => rfl
  | cons x front ih =>
    rw [flatMap_cons, append_assoc, append_assoc, singleton_append,
      splitOn_append_cons_self_of_not_mem (h x mem_cons_self), ih fun y hy => h y (.tail _ hy)]
    rfl

variable {std}

lemma cookieOf_carries {hdr t : Text} (h : CookieCarries std hdr t) :
    cookieOf std hdr = some (trimEnd std (t.takeWhile (· != ';'))) := by
  obtain ⟨front, blank, tail, rfl, hfront, hblank, htail⟩ := h
  have hname : ';' ∉ cookieToken := by decide
  have hno : ';' ∉ t.takeWhile (· != ';') := fun hmem => by simpa using mem_takeWhile_imp hmem
  -- the cookie ends at the first semicolon, in the token or behind it
  obtain ⟨back, hback⟩ : ∃ back, (blank ++ (cookieToken ++ (t ++ tail))).splitOn ';' =
      (blank ++ (cookieToken ++ t.takeWhile (· != ';'))) :: back := by
    have hpiece : ';' ∉ blank ++ (cookieToken ++ t.takeWhile (· != ';')) := by
      simp [not_mem_semicolon_blank std hblank, hname, hno]
    obtain ⟨rest, hrest, hsep⟩ : ∃ rest, t ++ tail = t.takeWhile (· != ';') ++ rest ∧
        (rest = [] ∨ rest.head? = some ';') := by
      refine ⟨t.dropWhile (· != ';') ++ tail, by
        rw [← append_assoc, takeWhile_append_dropWhile], ?_⟩
      cases hdrop : t.dropWhile (· != ';') with
      | nil => exact htail
      | cons c more =>
        have := head_dropWhile_not (p := (· != ';')) (l := t) (by simp [hdrop])
        exact .inr (by simpa [hdrop] using this)
    rw [hrest, ← append_assoc cookieToken, ← append_assoc blank]
    rcases hsep with rfl | hsep
    · exact ⟨[], by rw [append_nil, splitOn_eq_singleton hpiece]⟩
    · obtain ⟨more, rfl⟩ := head?_eq_some_iff.mp hsep
      exact ⟨_, splitOn_append_cons_self_of_not_mem hpiece _⟩
  rw [cookieOf, splitOn_flatMap_sep (fun x hx => (hfront x hx).1), hback]
  refine findSome?_eq_some_iff.mpr ⟨front, _, back, rfl, ?_, fun x hx => (hfront x hx).2⟩
  rw [trim_cookie std hblank, stripPrefix_append]

end

/-- A text with as many bytes as characters is of single-byte characters. -/
lemma isAscii_of_length (h : (utf8 s).length = s.length) : IsAscii s := by
  have hle : ∀ s : Text, s.length ≤ (utf8 s).length := fun s =>
    Codec.Reader.length_le_of_ne_nil fun c _ => by simp
  induction s with
  | nil => exact fun _ h => absurd h not_mem_nil
  | cons c s ih =>
    have hsize : (utf8 (c :: s)).length = c.utf8Size + (utf8 s).length := by
      rw [utf8, flatMap_cons, length_append, String.length_utf8EncodeChar]
      rfl
    have hpos := c.utf8Size_pos
    have := hle s
    rw [hsize, length_cons] at h
    exact forall_mem_cons.mpr ⟨Char.utf8Size_eq_one_iff.mp (by omega), ih (by omega)⟩

/-- **What the request carries is what is extracted**, exactly as far as the following says. There
is a panic iff a parameter is decoded in which a percent sign cuts a character. A token in the
header is returned iff it has no blanks around it, one in a cookie iff it has no semicolon and no
blanks at its end, and one in a percent encoding in the query iff it has single-byte characters
only. -/
theorem extractToken_faithful (std : CharTable) (req : HttpRequest) (query t : Text) :
    ((extractToken std req query).isSome ↔
        ∀ s, tokenParam std req query = some s → ¬ CutsCharacter (utf8 s)) ∧
      (req.header "Authorization" = some (bearer ++ t) →
        (extractToken std req query = some (some t) ↔ trim std t = t)) ∧
      ((req.header "Authorization").bind (stripPrefix bearer) = none →
        (∀ hdr, req.header "Cookie" = some hdr → CookieCarries std hdr t →
          (extractToken std req query = some (some t) ↔ ';' ∉ t ∧ trimEnd std t = t)) ∧
        ((req.header "Cookie").bind (cookieOf std) = none →
          ∀ front s back, PercentEncodes (utf8 t) s →
          query.splitOn '&' = front ++ (queryToken ++ s) :: back →
          (∀ x ∈ front, stripPrefix queryToken x = none) →
          (extractToken std req query = some (some t) ↔ IsAscii t))) := by
  refine ⟨?_, fun hheader => ?_, fun hheader => ⟨?_, ?_⟩⟩
  · unfold extractToken tokenParam
    split
    · next hauth => simp [hauth]
    · next hauth =>
      split
      · next hcookie => simp [hcookie]
      · next hcookie =>
        rw [hauth, hcookie, if_neg (by simp)]
        cases (query.splitOn '&').findSome? (stripPrefix queryToken) with
        | none => simp
        | some s => simpa [urlDecode] using @isSome_urlDecodeLoop 0 (utf8 s)
  · rw [extractToken, hheader, Option.bind_some, stripPrefix_append]
    simp
  · intro hdr hcookie hcarries
    rw [extractToken, hheader, hcookie, Option.bind_some, cookieOf_carries hcarries]
    simp only [Option.some.injEq]
    constructor
    · intro h
      -- nothing was cut off
      have hwhole : t.takeWhile (· != ';') = t := by
        refine ( takeWhile_prefix _).eq_of_length_le ?_
        conv_lhs => rw [← h]
        exact ( rdropWhile_prefix _ _).length_le
      rw [hwhole] at h
      refine ⟨fun hmem => ?_, h⟩
      rw [← hwhole] at hmem
      simpa using mem_takeWhile_imp hmem
    · rintro ⟨hno, htrim⟩
      rw [takeWhile_eq_self_iff.mpr fun c hc => by
        simpa using fun heq : c = ';' => hno (heq ▸ hc), htrim]
  · intro hcookie front s back hs hsplit hfront
    have hfound : (query.splitOn '&').findSome? (stripPrefix queryToken) = some s :=
      findSome?_eq_some_iff.mpr ⟨front, _, back, hsplit, stripPrefix_append _ s, hfront⟩
    rw [extractToken, hheader, hcookie, hfound]
    dsimp only
    rw [urlDecode_percent hs]
    simp only [Option.map_some, Option.some.injEq]
    refine ⟨fun h => isAscii_of_length ?_, utf8_map_ascii⟩
    simpa using congrArg List.length h

theorem extractToken_faithful_plus :
    extractToken .ascii ⟨[], [], [("Authorization".toList, bearer ++ ['é'])]⟩ [] =
      some (some ['é']) ∧
      extractToken .ascii ⟨[], [], []⟩ "token=%2B".toList = some (some ['+']) :=
  ⟨((extractToken_faithful _ _ _ _).2.1 rfl).mpr (by decide),
    (((extractToken_faithful _ _ _ ['+']).2.2 rfl).2 rfl [] ['%', '2', 'B'] []
      (.escape rfl rfl .nil) (by decide) (by simp)).mpr (by unfold IsAscii; decide)⟩

/-- A percent sign in front of a character of several bytes is cut in the middle of it, and such a
character is decoded as one character for each byte. -/
theorem extractToken_not_faithful : extractToken .ascii ⟨[], [], []⟩ "token=%aé".toList = none ∧
      PercentEncodes (utf8 ['é']) "%C3%A9".toList ∧
      extractToken .ascii ⟨[], [], []⟩ "token=%C3%A9".toList = some (some "Ã©".toList) :=
  ⟨by decide +kernel, .escape rfl rfl (.escape rfl rfl .nil), by decide +kernel⟩

end

end XyzDB.Server
