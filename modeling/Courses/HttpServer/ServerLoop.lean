import Courses.HttpServer.FileRequest
import Courses.HttpServer.RequestParser

/-!
# The loop of one connection

`HttpServer_ThrFn` of `hw4` answers the requests of one client until `GetNextRequest` has no
more, an answer cannot be written, or a request asks for the end of the connection. It
looks for that request under the name `Connection`, which the parser never stores.
-/
namespace Courses.HttpServer

open Lib SearchEngine

/-! ### `HttpServer_ThrFn` -/

/-- What the code meets outside, at its `n`-th request: the disk, the value of a
`response_code` that nothing has set, and what `WrappedWrite` returns for a text. -/
structure Surroundings where
  disk : ℕ → FileTree
  unset : ℕ → UInt16
  wrote : ℕ → List UInt8 → ℤ

/-- `ProcessQueryRequest`, whose body is missing: the response it declares, with its
`response_code` unset. -/
def processQueryRequest (unset : UInt16) : HttpResponse where
  protocol := []
  responseCode := unset.toNat
  message := []
  headers := []
  body := []

def processRequest (t : FileTree) (unset : UInt16) (req : HttpRequest) (basedir : CString) :
    Except NoResponse HttpResponse :=
  if req.uri.take 8 = ascii "/static/" then
    (processFileRequest t req.uri basedir).map Served.response
  else
    .ok (processQueryRequest unset)

def HttpResponse.generateResponseString (resp : HttpResponse) : List UInt8 :=
  resp.protocol ++ ascii " " ++ ascii (toString resp.responseCode) ++ ascii " " ++ resp.message ++
    crlf ++
  resp.headers.flatMap (fun h => h.1 ++ ascii ": " ++ h.2 ++ crlf) ++
  ascii "Content-length: " ++ ascii (toString resp.body.length) ++ crlf ++
  crlf ++
  resp.body

/-- `WriteResponse`; the length of the text is compared as an `int`. -/
def writeResponse (wrote : List UInt8 → ℤ) (resp : HttpResponse) : Bool :=
  let str := resp.generateResponseString
  wrote str = (str.length : ℤ).bmod (2 ^ 32)

/-- How the thread function ends. -/
inductive Outcome where
  | returns
  /-- it waits for ever for the client -/
  | waits
  /-- `ParseRequest` reads beyond a vector -/
  | undefined
  /-- `ProcessRequest` throws or does not return -/
  | fails (why : NoResponse)

structure Answer where
  request : HttpRequest
  response : HttpResponse
  written : Bool

/-- The requests that were processed, and how it ended. -/
structure Run where
  answers : List Answer
  outcome : Outcome

theorem getNextRequest_shorter {Request : Type*} {parse : List UInt8 → Request}
    {conn conn' : HttpConnection} {req : Request}
    (h : getNextRequest parse conn = some (.true req, conn')) :
    conn'.pending.length < conn.pending.length := by
  cases hfind : find terminator conn.pending with
  | none =>
    rw [getNextRequest_ended parse hfind] at h
    split at h <;> cases h
  | some pos =>
    obtain ⟨conn₁, hcall, hpending, -⟩ := getNextRequest_found parse hfind
    rw [hcall] at h
    cases h
    have hle := find_add_length_le hfind
    simp only [terminator, List.length_cons, List.length_nil] at hle
    rw [hpending, List.length_drop]
    omega

section

variable (env : Surroundings) (basedir : CString)

/-- The `while (!done)` loop, its `n`-th round first. -/
def serveLoop (n : ℕ) (conn : HttpConnection) : Run :=
  match h : getNextRequest parseRequest conn with
  | none => ⟨[], .waits⟩
  | some (.false, _) => ⟨[], .returns⟩
  | some (.true none, _) => ⟨[], .undefined⟩
  | some (.true (some req), conn') =>
    match processRequest (env.disk n) (env.unset n) req basedir with
    | .error why => ⟨[], .fails why⟩
    | .ok resp =>
      let done := req.headers (ascii "Connection") = some (ascii "close")
      let ret := writeResponse (env.wrote n) resp
      if done ∨ ret = false then
        ⟨[⟨req, resp, ret⟩], .returns⟩
      else
        have := getNextRequest_shorter h
        let later := serveLoop (n + 1) conn'
        ⟨⟨req, resp, ret⟩ :: later.answers, later.outcome⟩
termination_by conn.pending.length

/-- `HttpServer_ThrFn` on a connection just accepted. -/
def httpServerThrFn (socket : Socket) : Run := serveLoop env basedir 0 ⟨socket, []⟩

/-! ### What the loop does with well-formed requests -/

/-- The response to the `n`-th request exists and is written. -/
def Answered (n : ℕ) (r : RequestText) : Prop :=
  ∀ req, parseRequest r.text = some req →
    ∃ resp, processRequest (env.disk n) (env.unset n) req basedir = .ok resp ∧
      writeResponse (env.wrote n) resp = true

variable {env basedir} {n : ℕ} {conn : HttpConnection} {r : RequestText}
  {requests : List RequestText} {ending : Ending}

theorem serveLoop_nil (h : conn.pending = []) :
    serveLoop env basedir n conn =
      ⟨[], if conn.socket.ending = .silent then .waits else .returns⟩ := by
  have hnone : find terminator conn.pending = none := by
    rw [h]
    rfl
  have hcall := getNextRequest_ended parseRequest hnone
  unfold serveLoop
  by_cases hsilent : conn.socket.ending = .silent
  · rw [if_pos hsilent] at hcall ⊢
    split <;> simp_all
  · rw [if_neg hsilent] at hcall ⊢
    split <;> simp_all

/-- One round: the request is processed, and unless that fails or its answer cannot be
written, the loop goes on with the bytes behind it, whatever its headers say. -/
theorem serveLoop_cons {more : List UInt8} (h : conn.pending = r.text ++ more) :
    ∃ req conn', parseRequest r.text = some req ∧ req.uri = r.uri ∧ conn'.pending = more ∧
      conn'.socket.ending = conn.socket.ending ∧
      serveLoop env basedir n conn =
        match processRequest (env.disk n) (env.unset n) req basedir with
        | .error why => ⟨[], .fails why⟩
        | .ok resp =>
          if writeResponse (env.wrote n) resp = false then ⟨[⟨req, resp, false⟩], .returns⟩
          else ⟨⟨req, resp, true⟩ :: (serveLoop env basedir (n + 1) conn').answers,
            (serveLoop env basedir (n + 1) conn').outcome⟩ := by
  obtain ⟨pos, hfind, hpos⟩ := r.find_terminator_text more
  obtain ⟨req, hparse, huri⟩ := r.parseRequest_text
  rw [← h] at hfind
  obtain ⟨conn', hcall, hpending, hending⟩ := getNextRequest_found parseRequest hfind
  rw [h, hpos, List.take_left, hparse] at hcall
  rw [h, hpos, List.drop_left] at hpending
  refine ⟨req, conn', hparse, huri, hpending, hending, ?_⟩
  have hheader := parseRequest_connection hparse
  conv_lhs => unfold serveLoop
  split
  · simp_all
  · simp_all
  · simp_all
  · rename_i req₁ conn₁ hcall₁
    rw [hcall] at hcall₁
    cases hcall₁
    cases processRequest (env.disk n) (env.unset n) req basedir with
    | error why => rfl
    | ok resp =>
      cases hwrite : writeResponse (env.wrote n) resp <;> simp [hheader, hwrite]

/-! ### `Connection: close` -/

/-- The requests up to and including the first that asks for the end of the connection. -/
def upToClose : List RequestText → List RequestText
  | [] => []
  | r :: requests => if r.carriesClose then [r] else r :: upToClose requests

def SomeClose (requests : List RequestText) : Prop := ∃ r ∈ requests, r.carriesClose = true

/-- The requests up to the first with `Connection: close` are answered in order, and with
that request the connection ends. -/
structure EndsAtClose (run : Run) (requests : List RequestText) : Prop where
  answered : run.answers.map (fun a => a.request.uri) = (upToClose requests).map RequestText.uri
  written : ∀ a ∈ run.answers, a.written = true
  ended : SomeClose requests → run.outcome = .returns

/-- Every request up to the first with `Connection: close` can be answered; and if there is
such a request, it is the last one and the client does not leave the connection open. -/
structure ClientCloses (env : Surroundings) (basedir : CString) (n : ℕ) (ending : Ending)
    (requests : List RequestText) : Prop where
  answered : ∀ i r, (upToClose requests)[i]? = some r → Answered env basedir (n + i) r
  last : SomeClose requests → upToClose requests = requests ∧ ending ≠ .silent

theorem upToClose_cons_of_close (h : r.carriesClose = true) :
    upToClose (r :: requests) = [r] := if_pos h

theorem upToClose_cons_of_not_close (h : r.carriesClose = false) :
    upToClose (r :: requests) = r :: upToClose requests := by
  simp [upToClose, h]

theorem someClose_cons_of_not_close (h : r.carriesClose = false) :
    SomeClose (r :: requests) ↔ SomeClose requests := by
  simp [SomeClose, h]

theorem getElem?_upToClose_zero (r : RequestText) (requests : List RequestText) :
    (upToClose (r :: requests))[0]? = some r := by
  unfold upToClose
  split <;> rfl

/-- The loop stops at once exactly when no request is left and the client has gone. -/
theorem serveLoop_stops_iff (h : conn.pending = requests.flatMap RequestText.text) :
    ((serveLoop env basedir n conn).answers = [] ∧
      (serveLoop env basedir n conn).outcome = .returns) ↔
    requests = [] ∧ conn.socket.ending ≠ .silent := by
  cases requests with
  | nil =>
    rw [serveLoop_nil h]
    by_cases hsilent : conn.socket.ending = .silent <;> simp [hsilent]
  | cons r requests =>
    obtain ⟨req, conn', -, -, -, -, hrun⟩ := @serveLoop_cons env basedir n conn r _ h
    rw [hrun]
    cases processRequest (env.disk n) (env.unset n) req basedir with
    | error why => simp
    | ok resp =>
      simp only
      split <;> simp

theorem ClientCloses.head (h : ClientCloses env basedir n ending (r :: requests)) :
    Answered env basedir n r := h.answered 0 r (getElem?_upToClose_zero r requests)

theorem clientCloses_cons_of_close (hclose : r.carriesClose = true)
    (hr : Answered env basedir n r) :
    ClientCloses env basedir n ending (r :: requests) ↔ requests = [] ∧ ending ≠ .silent := by
  have hsome : SomeClose (r :: requests) := ⟨r, List.mem_cons_self, hclose⟩
  constructor
  · intro h
    obtain ⟨hlast, hending⟩ := h.last hsome
    rw [upToClose_cons_of_close hclose] at hlast
    exact ⟨(List.cons.inj hlast).2.symm, hending⟩
  · rintro ⟨rfl, hending⟩
    refine ⟨?_, fun _ => ⟨upToClose_cons_of_close hclose, hending⟩⟩
    intro i r' hget
    rw [upToClose_cons_of_close hclose] at hget
    cases i with
    | zero =>
      cases hget
      exact hr
    | succ i => cases hget

theorem clientCloses_cons_of_not_close (hclose : r.carriesClose = false)
    (hr : Answered env basedir n r) :
    ClientCloses env basedir n ending (r :: requests) ↔
      ClientCloses env basedir (n + 1) ending requests := by
  constructor
  · intro h
    refine ⟨fun i r' hget => ?_, fun hsome => ?_⟩
    · rw [Nat.add_right_comm n 1 i]
      refine h.answered (i + 1) r' ?_
      rw [upToClose_cons_of_not_close hclose]
      exact hget
    · have hlast := h.last ((someClose_cons_of_not_close hclose).2 hsome)
      rw [upToClose_cons_of_not_close hclose] at hlast
      exact ⟨(List.cons.inj hlast.1).2, hlast.2⟩
  · intro h
    refine ⟨fun i r' hget => ?_, fun hsome => ?_⟩
    · rw [upToClose_cons_of_not_close hclose] at hget
      cases i with
      | zero =>
        cases hget
        exact hr
      | succ i =>
        have := h.answered i r' hget
        rwa [Nat.add_right_comm n 1 i] at this
    · have hlast := h.last ((someClose_cons_of_not_close hclose).1 hsome)
      rw [upToClose_cons_of_not_close hclose, hlast.1]
      exact ⟨rfl, hlast.2⟩

/-- A request that has been answered and goes by: the rest of the run decides. -/
theorem endsAtClose_cons {run : Run} {a : Answer} (huri : a.request.uri = r.uri)
    (hwritten : a.written = true) :
    EndsAtClose ⟨a :: run.answers, run.outcome⟩ (r :: requests) ↔
      if r.carriesClose then run.answers = [] ∧ run.outcome = .returns
      else EndsAtClose run requests := by
  split
  · rename_i hclose
    constructor
    · intro h
      have hanswered := h.answered
      rw [upToClose_cons_of_close hclose] at hanswered
      refine ⟨?_, h.ended ⟨r, List.mem_cons_self, hclose⟩⟩
      exact List.map_eq_nil_iff.1 (List.cons.inj hanswered).2
    · rintro ⟨hnil, houtcome⟩
      refine ⟨?_, ?_, fun _ => houtcome⟩
      · simp [upToClose_cons_of_close hclose, hnil, huri]
      · simp [hnil, hwritten]
  · rename_i hopen
    have hclose : r.carriesClose = false := by simpa using hopen
    constructor
    · intro h
      refine ⟨?_, fun b hb => h.written b (List.mem_cons_of_mem a hb), fun hsome => ?_⟩
      · have hanswered := h.answered
        rw [upToClose_cons_of_not_close hclose] at hanswered
        exact (List.cons.inj hanswered).2
      · exact h.ended ((someClose_cons_of_not_close hclose).2 hsome)
    · intro h
      refine ⟨?_, ?_, fun hsome => h.ended ((someClose_cons_of_not_close hclose).1 hsome)⟩
      · rw [upToClose_cons_of_not_close hclose, List.map_cons, List.map_cons, huri, h.answered]
      · intro b hb
        obtain rfl | hb := List.mem_cons.1 hb
        · exact hwritten
        · exact h.written b hb

theorem serveLoop_endsAtClose_iff (h : conn.pending = requests.flatMap RequestText.text) :
    EndsAtClose (serveLoop env basedir n conn) requests ↔
      ClientCloses env basedir n conn.socket.ending requests := by
  induction requests generalizing n conn with
  | nil =>
    have hempty : ¬ SomeClose [] := by simp [SomeClose]
    rw [serveLoop_nil h]
    constructor
    · intro _
      exact ⟨fun i r hget => by simp [upToClose] at hget, fun hsome => absurd hsome hempty⟩
    · intro _
      exact ⟨rfl, by simp, fun hsome => absurd hsome hempty⟩
  | cons r requests ih =>
    obtain ⟨req, conn', hparse, huri, hpending, hending, hrun⟩ :=
      @serveLoop_cons env basedir n conn r _ h
    have hcond : ClientCloses env basedir n conn.socket.ending (r :: requests) →
        ∃ resp, processRequest (env.disk n) (env.unset n) req basedir = .ok resp ∧
          writeResponse (env.wrote n) resp = true := fun hc => hc.head req hparse
    have hlength : (upToClose (r :: requests)).length ≠ 0 := by
      unfold upToClose
      split <;> simp
    rw [hrun]
    cases hprocess : processRequest (env.disk n) (env.unset n) req basedir with
    | error why =>
      -- no response: neither side holds
      refine iff_of_false (fun hends => ?_) (fun hc => ?_)
      · have := congrArg List.length hends.answered
        simp only [List.map_nil, List.length_nil, List.length_map] at this
        exact hlength this.symm
      · obtain ⟨resp, hresp, -⟩ := hcond hc
        rw [hprocess] at hresp
        cases hresp
    | ok resp =>
      cases hwrite : writeResponse (env.wrote n) resp with
      | false =>
        simp only [hwrite, if_true]
        refine iff_of_false (fun hends => ?_) (fun hc => ?_)
        · have := hends.written ⟨req, resp, false⟩ (by simp)
          cases this
        · obtain ⟨resp', hresp, hwrite'⟩ := hcond hc
          rw [hprocess] at hresp
          cases hresp
          rw [hwrite] at hwrite'
          cases hwrite'
      | true =>
        have hr : Answered env basedir n r := by
          intro req' hparse'
          rw [hparse] at hparse'
          cases hparse'
          exact ⟨resp, hprocess, hwrite⟩
        simp only [hwrite, Bool.true_eq_false, if_false]
        rw [endsAtClose_cons huri rfl]
        cases hclose : r.carriesClose with
        | true =>
          rw [if_pos rfl, clientCloses_cons_of_close hclose hr, ← hending]
          exact serveLoop_stops_iff hpending
        | false =>
          rw [if_neg Bool.false_ne_true, clientCloses_cons_of_not_close hclose hr, ← hending]
          exact ih hpending

/-- `Connection: close` does not end the connection: the requests up to the first that carries
it are answered, and nothing after it is, exactly when the client itself stops there. -/
theorem httpServerThrFn_endsAtClose_iff (env : Surroundings) (basedir : CString) (socket : Socket)
    (requests : List RequestText) (h : unread socket.events = requests.flatMap RequestText.text) :
    EndsAtClose (httpServerThrFn env basedir socket) requests ↔
      ClientCloses env basedir 0 socket.ending requests :=
  @serveLoop_endsAtClose_iff env basedir 0 ⟨socket, []⟩ requests h

end

/-! ### Two requests, the first with `Connection: close` -/

def closeLine : HeaderLine where
  name := ascii "Connection"
  value := ascii "close"
  name_nonempty := by decide +kernel
  name_clean := by decide +kernel
  value_clean := by decide +kernel

def closingRequest : RequestText where
  uri := ascii "/"
  protocol := ascii "HTTP/1.1"
  headers := [closeLine]
  uri_nonempty := by decide +kernel
  uri_clean := by decide +kernel
  protocol_nonempty := by decide +kernel
  protocol_clean := by decide +kernel

def laterRequest : RequestText := { closingRequest with headers := [] }

/-- A connection on which the bytes of some requests arrive at once. -/
def arriving (requests : List RequestText)
    (h : requests.flatMap RequestText.text ≠ [] ∧
      (requests.flatMap RequestText.text).length ≤ 1024) : Socket :=
  ⟨[.data ⟨requests.flatMap RequestText.text, h.1, h.2⟩], .closed⟩

/-- Every text is written whole. -/
def quietSurroundings : Surroundings where
  disk _ := site
  unset _ := 0
  wrote _ str := (str.length : ℤ).bmod (2 ^ 32)

theorem answered_closingRequest : Answered quietSurroundings www 0 closingRequest := by
  intro req hparse
  obtain ⟨req', hparse', huri⟩ := closingRequest.parseRequest_text
  rw [hparse] at hparse'
  cases hparse'
  have hquery : ¬ closingRequest.uri.take 8 = ascii "/static/" := by decide +kernel
  refine ⟨processQueryRequest 0, ?_, by simp [writeResponse, quietSurroundings]⟩
  unfold processRequest
  rw [huri, if_neg hquery]
  rfl

theorem httpServerThrFn_ends_closingRequest :
    EndsAtClose (httpServerThrFn quietSurroundings www
      (arriving [closingRequest] (by decide +kernel))) [closingRequest] := by
  refine (httpServerThrFn_endsAtClose_iff quietSurroundings www
    (arriving [closingRequest] (by decide +kernel)) [closingRequest] (List.append_nil _)).2 ?_
  have hclose : closingRequest.carriesClose = true := by decide +kernel
  exact (clientCloses_cons_of_close hclose answered_closingRequest).2 ⟨rfl, Ending.noConfusion⟩

theorem httpServerThrFn_goes_on : ¬ ∀ (env : Surroundings) (basedir : CString) (socket : Socket)
    (requests : List RequestText), unread socket.events = requests.flatMap RequestText.text →
    EndsAtClose (httpServerThrFn env basedir socket) requests := by
  intro hall
  have hends := hall quietSurroundings www
    (arriving [closingRequest, laterRequest] (by decide +kernel)) [closingRequest, laterRequest]
    (List.append_nil _)
  have hclient := (serveLoop_endsAtClose_iff (List.append_nil _)).1 hends
  have hclose : closingRequest.carriesClose = true := by decide +kernel
  have hlast := (clientCloses_cons_of_close hclose answered_closingRequest).1 hclient
  exact absurd hlast.1 (List.cons_ne_nil _ _)

end Courses.HttpServer
