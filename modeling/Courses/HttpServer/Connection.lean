import Courses.Lib.Substring
import Mathlib.Data.List.Basic
import Mathlib.Tactic

/-!
# Requests on one client connection

`HttpConnection` of `hw4`: the bytes of a client arrive in pieces cut by the network,
and `GetNextRequest` cuts them again, at the blank line that ends a request header. The
socket is the list of what its `read` calls give, so a run of the connection is a
function of it; the theorem says that the requests are a function of the bytes alone.
-/
namespace Courses.HttpServer

open Lib

/-- What one successful `read` of at most 1024 bytes puts in the buffer. -/
structure Chunk where
  bytes : List UInt8
  nonempty : bytes ≠ []
  fits : bytes.length ≤ 1024

/-- A `read` that does not end the connection. -/
inductive ReadEvent where
  | data (chunk : Chunk)
  /-- `-1` with `errno` `EAGAIN` or `EINTR` -/
  | again

/-- How the connection goes on after the last byte. -/
inductive Ending where
  /-- the client closes: every further `read` is 0 -/
  | closed
  /-- every further `read` is `-1` with another `errno` -/
  | failed
  /-- the client sends nothing more and does not close: `read` does not return -/
  | silent
  deriving DecidableEq

structure Socket where
  events : List ReadEvent
  ending : Ending

inductive ReadResult where
  | data (chunk : Chunk)
  | eof
  | error

/-- The bytes that the socket still gives. -/
@[grind]
def unread : List ReadEvent → List UInt8
  | [] => []
  | .data chunk :: events => chunk.bytes ++ unread events
  | .again :: events => unread events

/-- `WrappedRead`: `read` again as long as it was only interrupted. -/
@[grind]
def wrappedRead (ending : Ending) : List ReadEvent → Option (ReadResult × List ReadEvent)
  | [] =>
    match ending with
    | .closed => some (.eof, [])
    | .failed => some (.error, [])
    | .silent => none
  | .data chunk :: events => some (.data chunk, events)
  | .again :: events => wrappedRead ending events

theorem wrappedRead_shorter {ending : Ending} {events rest : List ReadEvent} {chunk : Chunk}
    (h : wrappedRead ending events = some (.data chunk, rest)) : rest.length < events.length := by
  induction events with
  | nil => cases ending <;> simp [wrappedRead] at h
  | cons event events ih =>
    cases event with
    | data chunk' =>
      simp only [wrappedRead, Option.some.injEq, Prod.mk.injEq] at h
      simp [h.2]
    | again =>
      have := ih h
      simp only [List.length_cons]
      omega

/-- The blank line that ends a request header. -/
def terminator : List UInt8 := [13, 10, 13, 10]

structure HttpConnection where
  socket : Socket
  buffer : List UInt8

/-- The `while (1)` loop of `GetNextRequest`: the position of the terminator, `npos` when the
client closed, `-1` of `read` as `error`; with it the buffer and what is left of the socket. -/
inductive Filled where
  | found (pos : ℕ)
  | npos
  | error

@[grind]
def fillBuffer (ending : Ending) (events : List ReadEvent) (buffer : List UInt8) :
    Option (Filled × List ReadEvent × List UInt8) :=
  match h : wrappedRead ending events with
  | none => none
  | some (.error, rest) => some (.error, rest, buffer)
  | some (.eof, rest) => some (.npos, rest, buffer)
  | some (.data chunk, rest) =>
    let buffer := buffer ++ chunk.bytes
    match find terminator buffer with
    | some pos => some (.found pos, rest, buffer)
    | none =>
      have := wrappedRead_shorter h
      fillBuffer ending rest buffer
termination_by events.length

section

variable {Request : Type*} (parseRequest : List UInt8 → Request)

/-- What a call of `GetNextRequest` returns, the request through its output parameter. -/
inductive Returned (Request : Type*) where
  | true (request : Request)
  | false

/-- `ParseRequest(pos + 4)` followed by `buffer_ = buffer_.substr(pos + 4)`. -/
def takeRequest (socket : Socket) (buffer : List UInt8) (pos : ℕ) :
    Returned Request × HttpConnection :=
  (.true (parseRequest (buffer.take (pos + 4))), ⟨socket, buffer.drop (pos + 4)⟩)

/-- `HttpConnection::GetNextRequest`; `none` when it waits for ever. -/
@[grind]
def getNextRequest (conn : HttpConnection) : Option (Returned Request × HttpConnection) :=
  match find terminator conn.buffer with
  | some pos => some (takeRequest parseRequest conn.socket conn.buffer pos)
  | none =>
    match fillBuffer conn.socket.ending conn.socket.events conn.buffer with
    | none => none
    | some (.error, rest, buffer) => some (.false, ⟨⟨rest, conn.socket.ending⟩, buffer⟩)
    | some (.npos, rest, buffer) => some (.false, ⟨⟨rest, conn.socket.ending⟩, buffer⟩)
    | some (.found pos, rest, buffer) =>
      some (takeRequest parseRequest ⟨rest, conn.socket.ending⟩ buffer pos)

/-- The call of `GetNextRequest` that comes after `n` others. -/
@[grind]
def nthCall : ℕ → HttpConnection → Option (Returned Request × HttpConnection)
  | 0, conn => getNextRequest parseRequest conn
  | n + 1, conn => (getNextRequest parseRequest conn).bind fun r => nthCall n r.2

end

/-! ### The requests in a stream of bytes -/

/-- The pieces of a stream that end with its successive terminators, and the bytes after
the last of them. -/
@[grind]
def frames (stream : List UInt8) : List (List UInt8) × List UInt8 :=
  match h : find terminator stream with
  | none => ([], stream)
  | some pos =>
    have : (stream.drop (pos + 4)).length < stream.length := by
      have := find_add_length_le h
      simp only [terminator, List.length_cons, List.length_nil] at this
      rw [List.length_drop]
      omega
    let later := frames (stream.drop (pos + 4))
    (stream.take (pos + 4) :: later.1, later.2)
termination_by stream.length

theorem frames_of_none {stream : List UInt8} (h : find terminator stream = none) :
    frames stream = ([], stream) := by
  unfold frames
  split
  · rfl
  · rename_i h'
    rw [h] at h'
    cases h'

theorem frames_of_some {stream : List UInt8} {pos : ℕ} (h : find terminator stream = some pos) :
    frames stream = (stream.take (pos + 4) :: (frames (stream.drop (pos + 4))).1,
      (frames (stream.drop (pos + 4))).2) := by
  conv_lhs => unfold frames
  split
  · rename_i h'
    rw [h] at h'
    cases h'
  · rename_i h'
    rw [h] at h'
    cases h'
    rfl

theorem frames_flatten (stream : List UInt8) :
    (frames stream).1.flatten ++ (frames stream).2 = stream := by
  induction stream using frames.induct with
  | case1 stream h => simp [frames_of_none h]
  | case2 stream pos h _ ih =>
    rw [frames_of_some h, List.flatten_cons, List.append_assoc, ih, List.take_append_drop]

/-! ### One call -/

@[simp] theorem unread_nil : unread [] = [] := rfl

@[simp] theorem unread_data (chunk : Chunk) (events : List ReadEvent) :
    unread (.data chunk :: events) = chunk.bytes ++ unread events := rfl

@[simp] theorem unread_again (events : List ReadEvent) :
    unread (.again :: events) = unread events := rfl

/-- The bytes that no request has taken yet: those read already, and those to come. -/
def HttpConnection.pending (conn : HttpConnection) : List UInt8 :=
  conn.buffer ++ unread conn.socket.events

@[simp] theorem pending_of_read_all (ending : Ending) (buffer : List UInt8) :
    HttpConnection.pending ⟨⟨[], ending⟩, buffer⟩ = buffer := List.append_nil buffer

section

variable {ending : Ending} {events : List ReadEvent} {buffer : List UInt8} {pos : ℕ}

theorem fillBuffer_again :
    fillBuffer ending (.again :: events) buffer = fillBuffer ending events buffer := by
  conv_lhs => unfold fillBuffer
  conv_rhs => unfold fillBuffer
  rfl

theorem fillBuffer_data (chunk : Chunk) :
    fillBuffer ending (.data chunk :: events) buffer =
      match find terminator (buffer ++ chunk.bytes) with
      | some pos => some (.found pos, events, buffer ++ chunk.bytes)
      | none => fillBuffer ending events (buffer ++ chunk.bytes) := by
  conv_lhs => unfold fillBuffer
  rfl

/-- The loop stops at the first terminator of the stream, wherever the chunks end. -/
theorem fillBuffer_found (ending : Ending) (hpos : find terminator (buffer ++ unread events) = some pos)
    (hnone : find terminator buffer = none) :
    ∃ rest buffer', fillBuffer ending events buffer = some (.found pos, rest, buffer') ∧
      buffer' ++ unread rest = buffer ++ unread events ∧ pos + 4 ≤ buffer'.length := by
  induction events generalizing buffer with
  | nil =>
    rw [unread_nil, List.append_nil, hnone] at hpos
    cases hpos
  | cons event events ih =>
    cases event with
    | again =>
      rw [fillBuffer_again]
      exact ih hpos hnone
    | data chunk =>
      rw [fillBuffer_data]
      rw [unread_data, ← List.append_assoc] at hpos ⊢
      cases hchunk : find terminator (buffer ++ chunk.bytes) with
      | none => exact ih hpos hchunk
      | some pos' =>
        -- a terminator seen before the end of the stream is the first of the stream
        rw [find_append hchunk] at hpos
        cases hpos
        exact ⟨events, _, rfl, rfl, find_add_length_le hchunk⟩

/-- Without a terminator the loop reads the stream to its end. -/
theorem fillBuffer_ended (hnone : find terminator (buffer ++ unread events) = none) :
    fillBuffer ending events buffer =
      match ending with
      | .closed => some (.npos, [], buffer ++ unread events)
      | .failed => some (.error, [], buffer ++ unread events)
      | .silent => none := by
  induction events generalizing buffer with
  | nil =>
    unfold fillBuffer
    cases ending <;> simp [wrappedRead]
  | cons event events ih =>
    cases event with
    | again =>
      rw [fillBuffer_again]
      exact ih hnone
    | data chunk =>
      rw [unread_data, ← List.append_assoc] at hnone ⊢
      rw [fillBuffer_data, find_append_left_eq_none hnone]
      exact ih hnone

end

section

variable {Request : Type*} (parseRequest : List UInt8 → Request) {conn : HttpConnection} {pos : ℕ}

/-- A request that lies in the buffer is cut off the front of the pending bytes. -/
theorem takeRequest_eq {socket : Socket} {buffer : List UInt8} (hfit : pos + 4 ≤ buffer.length) :
    takeRequest parseRequest socket buffer pos =
      (.true (parseRequest ((buffer ++ unread socket.events).take (pos + 4))),
        ⟨socket, buffer.drop (pos + 4)⟩) := by
  rw [List.take_append_of_le_length hfit]
  rfl

theorem getNextRequest_found (hpos : find terminator conn.pending = some pos) :
    ∃ conn', getNextRequest parseRequest conn =
        some (.true (parseRequest (conn.pending.take (pos + 4))), conn') ∧
      conn'.pending = conn.pending.drop (pos + 4) ∧ conn'.socket.ending = conn.socket.ending := by
  unfold getNextRequest
  cases hbuf : find terminator conn.buffer with
  | some pos' =>
    -- the buffer already holds the request: the socket is not touched
    have hfit : pos' + 4 ≤ conn.buffer.length := find_add_length_le hbuf
    rw [HttpConnection.pending, find_append hbuf] at hpos
    cases hpos
    refine ⟨⟨conn.socket, conn.buffer.drop (pos + 4)⟩, ?_, ?_, rfl⟩
    · exact congrArg some (takeRequest_eq parseRequest hfit)
    · exact (List.drop_append_of_le_length hfit).symm
  | none =>
    obtain ⟨rest, buffer, hfill, hstream, hfit⟩ := fillBuffer_found conn.socket.ending hpos hbuf
    simp only [hfill]
    rw [HttpConnection.pending, ← hstream]
    refine ⟨⟨⟨rest, conn.socket.ending⟩, buffer.drop (pos + 4)⟩, ?_, ?_, rfl⟩
    · exact congrArg some (takeRequest_eq parseRequest hfit)
    · exact (List.drop_append_of_le_length hfit).symm

theorem getNextRequest_ended (hnone : find terminator conn.pending = none) :
    getNextRequest parseRequest conn =
      if conn.socket.ending = .silent then none
      else some (.false, ⟨⟨[], conn.socket.ending⟩, conn.pending⟩) := by
  unfold getNextRequest
  rw [find_append_left_eq_none hnone, fillBuffer_ended hnone]
  cases conn.socket.ending <;> rfl

/-! ### All calls -/

/-- What the call after `n` others returns, from the bytes of the stream alone. -/
def expectedReturn (ending : Ending) (stream : List UInt8) (n : ℕ) : Option (Returned Request) :=
  match (frames stream).1[n]? with
  | some piece => some (.true (parseRequest piece))
  | none => if ending = .silent then none else some .false

theorem expectedReturn_of_none {ending : Ending} {stream : List UInt8}
    (h : find terminator stream = none) (n : ℕ) :
    expectedReturn parseRequest ending stream n = if ending = .silent then none else some .false := by
  simp [expectedReturn, frames_of_none h]

theorem nthCall_returns (n : ℕ) (conn : HttpConnection) :
    (nthCall parseRequest n conn).map Prod.fst =
      expectedReturn parseRequest conn.socket.ending conn.pending n := by
  induction n generalizing conn with
  | zero =>
    cases hfind : find terminator conn.pending with
    | none =>
      rw [expectedReturn_of_none parseRequest hfind, nthCall, getNextRequest_ended parseRequest hfind]
      split <;> rfl
    | some pos =>
      obtain ⟨conn', hcall, -, -⟩ := getNextRequest_found parseRequest hfind
      simp [nthCall, hcall, expectedReturn, frames_of_some hfind]
  | succ n ih =>
    cases hfind : find terminator conn.pending with
    | none =>
      rw [expectedReturn_of_none parseRequest hfind, nthCall, getNextRequest_ended parseRequest hfind]
      split
      · rfl
      · rename_i hends
        -- the stream has ended and has been read: later calls see the same bytes
        rw [Option.bind_some, ih, pending_of_read_all, expectedReturn_of_none parseRequest hfind]
        exact if_neg hends
    | some pos =>
      obtain ⟨conn', hcall, hpending, hending⟩ := getNextRequest_found parseRequest hfind
      rw [nthCall, hcall, Option.bind_some, ih, hpending, hending]
      simp [expectedReturn, frames_of_some hfind]

/-- The requests taken by the calls so far, the buffer and the bytes to come make up the
stream. -/
theorem nthCall_pending {n : ℕ} {conn conn' : HttpConnection} {r : Returned Request}
    (h : nthCall parseRequest n conn = some (r, conn')) :
    ((frames conn.pending).1.take (n + 1)).flatten ++ conn'.pending = conn.pending := by
  induction n generalizing conn with
  | zero =>
    cases hfind : find terminator conn.pending with
    | none =>
      rw [nthCall, getNextRequest_ended parseRequest hfind] at h
      split at h
      · cases h
      · cases h
        simp [frames_of_none hfind]
    | some pos =>
      obtain ⟨conn₁, hcall, hpending, -⟩ := getNextRequest_found parseRequest hfind
      rw [nthCall, hcall] at h
      cases h
      simp [frames_of_some hfind, hpending]
  | succ n ih =>
    cases hfind : find terminator conn.pending with
    | none =>
      rw [nthCall, getNextRequest_ended parseRequest hfind] at h
      split at h
      · cases h
      · have htail := ih h
        simpa [frames_of_none hfind] using htail
    | some pos =>
      obtain ⟨conn₁, hcall, hpending, -⟩ := getNextRequest_found parseRequest hfind
      rw [nthCall, hcall] at h
      have htail := ih h
      rw [hpending] at htail
      rw [frames_of_some hfind, List.take_succ_cons, List.flatten_cons, List.append_assoc, htail,
        List.take_append_drop]

/-- Request framing is independent of chunking. Whatever the chunks, the successive calls on
a new connection parse the successive pieces of the stream, each ending with the first
terminator that remains; what was read beyond is kept for the next call; and a call returns
`false` exactly when the stream ends before another terminator. -/
theorem requests_independent_of_chunks (socket : Socket) (n : ℕ) :
    (frames (unread socket.events)).1.flatten ++ (frames (unread socket.events)).2 =
        unread socket.events ∧
      (nthCall parseRequest n ⟨socket, []⟩).map Prod.fst =
        expectedReturn parseRequest socket.ending (unread socket.events) n ∧
      ∀ r conn, nthCall parseRequest n ⟨socket, []⟩ = some (r, conn) →
        ((frames (unread socket.events)).1.take (n + 1)).flatten ++
          (conn.buffer ++ unread conn.socket.events) = unread socket.events := by
  refine ⟨frames_flatten _, nthCall_returns parseRequest n ⟨socket, []⟩, ?_⟩
  intro r conn h
  exact nthCall_pending parseRequest h

end

end Courses.HttpServer

/-!
# Strings of the web server

`HttpUtils.cc` of `hw4`: percent decoding, splitting a URL and escaping text for HTML. A
`std::string` is its bytes. Loops of the source count in an `unsigned int` up to a
`size_t`; a string with `2 ^ 32` or more pieces makes them go round for ever, and that is
`none` here.
-/
namespace Courses.HttpServer

def ascii (s : String) : List UInt8 := s.toUTF8.toList

/-! ## `URIDecode` -/

def toupper (c : UInt8) : UInt8 := if 97 ≤ c ∧ c ≤ 122 then c - 32 else c

def isHexDigit (c : UInt8) : Bool := (48 ≤ c ∧ c ≤ 57) ∨ (65 ≤ c ∧ c ≤ 70)

def hexValue (c : UInt8) : UInt8 := if 65 ≤ c then 10 + (c - 65) else c - 48

/-- The loop of `URIDecode` over what is left, `skip` characters of it already decoded. -/
@[grind]
def uriDecodeLoop : ℕ → List UInt8 → List UInt8
  | _, [] => []
  | skip + 1, _ :: rest => uriDecodeLoop skip rest
  | 0, c1 :: rest =>
    let c2 := (rest[0]?.map toupper).getD 32
    let c3 := (rest[1]?.map toupper).getD 32
    if c1 = 43 then
      32 :: uriDecodeLoop 0 rest
    else if c1 ≠ 37 then
      c1 :: uriDecodeLoop 0 rest
    else if !isHexDigit c2 then
      c1 :: uriDecodeLoop 0 rest
    else if !isHexDigit c3 then
      c1 :: uriDecodeLoop 0 rest
    else
      let code := 16 * hexValue c2 + hexValue c3
      if ¬ (32 ≤ code ∧ code ≤ 127) then
        c1 :: uriDecodeLoop 0 rest
      else
        code :: uriDecodeLoop 2 rest

@[grind]
def uriDecode (source : List UInt8) : Option (List UInt8) :=
  if source.length < 3 then
    some source
  else if 2 ^ 32 ≤ source.length then
    none
  else
    some (uriDecodeLoop 0 source)

/-! ## `URLParser` -/

structure URLParser where
  url : List UInt8
  path : List UInt8
  args : List UInt8 → Option (List UInt8)

def URLParser.empty : URLParser := ⟨[], [], fun _ => none⟩

/-- The loop of `Parse` over the `field=val` chunks. -/
@[grind]
def parseArgs : List (List UInt8) → URLParser → Option URLParser
  | [], parser => some parser
  | val :: vals, parser =>
    match val.splitOn 61 with
    | [field, value] => do
      let field ← uriDecode field
      let value ← uriDecode value
      parseArgs vals { parser with args := Function.update parser.args field (some value) }
    | _ => parseArgs vals parser

def URLParser.parse (parser : URLParser) (url : List UInt8) : Option URLParser :=
  let parser := { parser with url := url }
  match url.splitOn 63 with
  | [] => some parser
  | [path] => do
    return { parser with path := ← uriDecode path }
  | path :: args :: _ => do
    let parser := { parser with path := ← uriDecode path }
    let vals := args.splitOn 38
    if 2 ^ 32 ≤ vals.length then
      none
    else
      parseArgs vals parser

/-! ## `EscapeHTML` -/

/-- `replace_all` of a character. -/
def replaceAll (s : List UInt8) (c : UInt8) (text : String) : List UInt8 :=
  s.flatMap fun b => if b = c then ascii text else [b]

def escapeHTML (source : List UInt8) : List UInt8 :=
  let ret := replaceAll source 38 "&amp;"
  let ret := replaceAll ret 34 "&quot;"
  let ret := replaceAll ret 39 "&apos;"
  let ret := replaceAll ret 60 "&lt;"
  replaceAll ret 62 "&gt;"

end Courses.HttpServer
