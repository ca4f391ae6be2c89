import Gehtp.Lib.Bytes
import Gehtp.Lib.Runs

/-!
# The file queue between host and runner

`scripts/persistent_runtime.py` and `kernels/examples/42_gehtp_persistent/main.c`: a call of `_rpc`
writes its request to `req.bin` on the device and polls for `resp.bin`; the runner on the device
takes the request, executes it and writes the response. Both names are fixed, and there is one of
each.

Every access of a file is a step of its own. `adb push` makes a new file under the name and fills
it part by part; whoever wrote to the file that was there before goes on writing to that one. A
file is removed by its name, whatever stands under it. A call may end with an error at any time
(a failed `adb` command, the time limit), and so may an allocation or a read of the runner.

The engine is a parameter. What the runner dumps for inspection is left out.
-/

set_option autoImplicit false

namespace Gehtp.Model.FileQueue

open Lib

/-! ### Texts and frames -/

def ascii (s : String) : List UInt8 := s.toList.map fun c => UInt8.ofNat c.toNat

/-- A C string ends at the first zero byte. -/
def cstr (l : List UInt8) : List UInt8 := l.takeWhile (· != 0)

/-- What stands from the first place on where the pattern is. -/
def strstr (pat : List UInt8) : List UInt8 → Option (List UInt8)
  | [] => none
  | b :: l => if pat.isPrefixOf (b :: l) then some (b :: l) else strstr pat l

/-- SOURCE: 42_gehtp_persistent/main.c:117-132 -/
def jsonGetStr (hdr : List UInt8) (key : String) : Option (List UInt8) := do
  let pat := ascii "\"" ++ ascii key ++ ascii "\""
  let p ← strstr pat hdr
  let c ← strstr (ascii ":") (p.drop pat.length)
  let s ← strstr (ascii "\"") c
  let e ← strstr (ascii "\"") (s.drop 1)
  some ((s.drop 1).take ((s.drop 1).length - e.length))

def be32 (n : ℕ) : List UInt8 := (u32le (UInt32.ofNat n)).reverse

def ofBe32 : List UInt8 → ℕ
  | b0 :: b1 :: b2 :: b3 :: _ => (u32OfBytes b3 b2 b1 b0).toNat
  | _ => 0

/-- The digits a text starts with, after what has been read of the number. -/
def readDigits : ℕ → List UInt8 → ℕ
  | n, [] => n
  | n, b :: l => if 48 ≤ b ∧ b ≤ 57 then readDigits (10 * n + (b.toNat - 48)) l else n

def readInt : List UInt8 → ℤ
  | 45 :: l => -(readDigits 0 l : ℤ)
  | l => readDigits 0 l

/-- `json.loads(..).get("rc", 0)` on the texts of the runner, where `rc` always stands first. -/
def rcOf (json : List UInt8) : ℤ :=
  if (ascii "\x7b\"rc\":").isPrefixOf json then readInt (json.drop 6) else 0

/-- A request as the callers of `_rpc` make them: the header names an operation, and there is a
body of the agreed size for `run` and none for the others. -/
structure Request (inBytes : ℕ) where
  hdr : List UInt8
  body : List UInt8
  framed : ∃ op, jsonGetStr (cstr hdr) "op" = some op ∧
    body.length = if op = ascii "run" then inBytes else 0
  small : 4 + hdr.length + body.length < 2 ^ 32

/-- SOURCE: persistent_runtime.py:241 -/
def Request.payload {inBytes : ℕ} (r : Request inBytes) : List UInt8 :=
  be32 r.hdr.length ++ r.hdr ++ r.body

/-! ### The state -/

/-- Where a call of `_rpc` is. -/
inductive Stage where
  | fresh
  /-- `resp.bin` is removed. -/
  | cleaned
  /-- So many bytes are pushed. -/
  | pushing (k : ℕ)
  | polling
  /-- `resp.bin` has been seen. -/
  | seen
  | pulled (data : List UInt8)
  | returned (out : List UInt8)
  | raised
  deriving DecidableEq, Repr

/-- `req.bin`, with the call that wrote it. -/
structure ReqFile where
  owner : ℕ
  data : List UInt8
  deriving DecidableEq, Repr

/-- Why a request is refused. -/
inductive ReqError where
  | badHdrLen | hdrReadFail | reqTimeout | oom | bodyReadFail | reqOversize | bodyTimeout
  | shortBody | bodyTooBig | badOp
  deriving DecidableEq, Repr

/-- SOURCE: 42_gehtp_persistent/main.c:218, 242, 248, 267, 278, 288, 294, 330, 341, 375 -/
def ReqError.text : ReqError → String
  | .badHdrLen => "bad_hdr_len"
  | .hdrReadFail => "hdr_read_fail"
  | .reqTimeout => "req_timeout"
  | .oom => "oom"
  | .bodyReadFail => "body_read_fail"
  | .reqOversize => "req_oversize"
  | .bodyTimeout => "body_timeout"
  | .shortBody => "short_body"
  | .bodyTooBig => "body_too_big"
  | .badOp => "bad_op"

/-- Where the runner is. -/
inductive Runner where
  | idle
  /-- It waits for a header of this length. -/
  | header (hdrLen : ℕ)
  /-- It waits for the file to have this length. -/
  | body (want : ℕ)
  /-- It has read the request of this call and will remove the file. -/
  | claim (c : ℕ) (buf : List UInt8)
  /-- It will remove a bad request. -/
  | drop (err : ReqError)
  | serve (c : ℕ) (buf : List UInt8)
  /-- It will open `resp.bin`. -/
  | reply (json : List UInt8) (stop : Bool)
  /-- It will write the length. -/
  | opened (json : List UInt8) (stop : Bool)
  /-- It will write the text. -/
  | half (json : List UInt8) (stop : Bool)
  | stopped
  deriving DecidableEq, Repr

/-- A request that was executed: whose it was, its bytes and the response. -/
structure Handled where
  call : ℕ
  buf : List UInt8
  out : List UInt8
  deriving DecidableEq, Repr

/-- What `wt_exec_run_io` reports. -/
structure RunOut where
  rc : ℤ
  err : List UInt8
  token : ℤ

structure Engine (D : Type) where
  stateReset : D → D
  runIo : List UInt8 → D → RunOut × D

structure Sys (D : Type) where
  calls : ℕ → Stage
  req : Option ReqFile
  resp : Option (List UInt8)
  runner : Runner
  dev : D
  /-- `g_steps` -/
  steps : ℕ
  /-- What was executed so far. -/
  log : List Handled

variable {D : Type} {inBytes : ℕ}

/-! ### The host -/

/-- SOURCE: persistent_runtime.py:261-271 -/
def parseResp (data : List UInt8) : Stage :=
  if data.length < 4 then .raised
  else if data.length < 4 + ofBe32 data then .raised
  else
    let json := (data.drop 4).take (ofBe32 data)
    if rcOf json ≠ 0 then .raised else .returned json

def Sys.setCall (s : Sys D) (c : ℕ) (st : Stage) : Sys D :=
  { s with calls := Function.update s.calls c st }

/-- `rm -f resp.bin` -/
def Sys.rmRespFile (s : Sys D) : Sys D := { s with resp := none }

/-- SOURCE: persistent_runtime.py:239 -/
def rmResp (c : ℕ) (s : Sys D) : Option (Sys D) :=
  match s.calls c with
  | .fresh => some (s.setCall c .cleaned).rmRespFile
  | _ => none

/-- SOURCE: persistent_runtime.py:246 -/
def pushOpen (c : ℕ) (s : Sys D) : Option (Sys D) :=
  match s.calls c with
  | .cleaned => some { s with calls := Function.update s.calls c (.pushing 0), req := some ⟨c, []⟩ }
  | _ => none

/-- The next `n` bytes. If another file has got the name, they go to the old one. -/
def pushPart (payload : List UInt8) (c n : ℕ) (s : Sys D) : Option (Sys D) :=
  match s.calls c with
  | .pushing k =>
    some { s with
      calls := Function.update s.calls c (.pushing (k + n))
      req := s.req.map fun f => if f.owner = c then ⟨c, payload.take (k + n)⟩ else f }
  | _ => none

def pushDone (payload : List UInt8) (c : ℕ) (s : Sys D) : Option (Sys D) :=
  match s.calls c with
  | .pushing k => if payload.length ≤ k then some (s.setCall c .polling) else none
  | _ => none

/-- `test -s`: the file is there and not empty. SOURCE: persistent_runtime.py:250-252 -/
def poll (c : ℕ) (s : Sys D) : Option (Sys D) :=
  match s.calls c with
  | .polling => if (s.resp.getD []).isEmpty then some s else some (s.setCall c .seen)
  | _ => none

/-- SOURCE: persistent_runtime.py:256 -/
def pull (c : ℕ) (s : Sys D) : Option (Sys D) :=
  match s.calls c with
  | .seen =>
    match s.resp with
    | none => some (s.setCall c .raised)
    | some data => some (s.setCall c (.pulled data))
  | _ => none

/-- SOURCE: persistent_runtime.py:257-271 -/
def finish (c : ℕ) (s : Sys D) : Option (Sys D) :=
  match s.calls c with
  | .pulled data => some (s.setCall c (parseResp data)).rmRespFile
  | _ => none

/-- A failed command or the time limit. SOURCE: persistent_runtime.py:249, 273 -/
def giveUp (c : ℕ) (s : Sys D) : Option (Sys D) :=
  match s.calls c with
  | .returned _ => none
  | _ => some (s.setCall c .raised)

/-! ### The runner -/

/-- What the surroundings decide in a step of the runner: a read or an allocation that fails, the
time limit of a wait, the bytes past the end of a buffer and the time a run takes. -/
structure Tick where
  fault : Bool
  late : Bool
  junk : List UInt8
  us : ℕ

def errText (err : ReqError) : List UInt8 :=
  ascii "\x7b\"rc\":-1,\"err\":\"" ++ ascii err.text ++ ascii "\"\x7d"

/-- The size of the request. SOURCE: 42_gehtp_persistent/main.c:222, 254-256 -/
def wantOf (inBytes hdrLen : ℕ) (hdr : List UInt8) : ℕ :=
  if jsonGetStr (cstr hdr) "op" = some (ascii "run") then (4 + hdrLen + inBytes) % 2 ^ 32
  else 4 + hdrLen

/-- SOURCE: 42_gehtp_persistent/main.c:206-220 -/
def lookIdle (t : Tick) (s : Sys D) : Sys D :=
  match s.req with
  | none => s
  | some f =>
    if f.data.length < 4 ∨ t.fault then s
    else if ofBe32 f.data = 0 ∨ 2 ^ 20 < ofBe32 f.data then { s with runner := .drop .badHdrLen }
    else { s with runner := .header (ofBe32 f.data) }

/-- The header is read to a buffer that is four bytes longer. SOURCE: main.c:221-252 -/
def lookHeader (inBytes hdrLen : ℕ) (t : Tick) (s : Sys D) : Sys D :=
  match s.req with
  | none => { s with runner := .idle }
  | some f =>
    if 4 + hdrLen ≤ f.data.length then
      if t.fault then { s with runner := .drop .hdrReadFail }
      else
        let hdr := (f.data.drop 4).take hdrLen ++ t.junk.take 4
        { s with runner := .body (wantOf inBytes hdrLen hdr) }
    else if t.late then { s with runner := .drop .reqTimeout }
    else s

/-- SOURCE: main.c:257-298 -/
def lookBody (want : ℕ) (t : Tick) (s : Sys D) : Sys D :=
  match s.req with
  | none => { s with runner := .idle }
  | some f =>
    if f.data.length = want then
      if t.fault then { s with runner := .drop .oom }
      else { s with runner := .claim f.owner f.data }
    else if want < f.data.length then { s with runner := .drop .reqOversize }
    else if t.late then { s with runner := .drop .bodyTimeout }
    else s

/-- SOURCE: main.c:275-283 -/
def claimReq (c : ℕ) (buf : List UInt8) (t : Tick) (s : Sys D) : Sys D :=
  if t.fault then { s with req := none, runner := .reply (errText .bodyReadFail) false }
  else { s with req := none, runner := .serve c buf }

def dropReq (err : ReqError) (s : Sys D) : Sys D :=
  { s with req := none, runner := .reply (errText err) false }

/-- The text, its quotes and control characters replaced. SOURCE: main.c:152-157 -/
def jesc (n : ℕ) (src : List UInt8) : List UInt8 :=
  ((cstr src).take (n - 1)).map fun b => if 32 ≤ b ∧ b ≠ 34 ∧ b ≠ 92 then b else 95

def runOp (E : Engine D) (body : List UInt8) (us : ℕ) (s : Sys D) : List UInt8 × Sys D :=
  let r := E.runIo body s.dev
  if r.1.rc ≠ 0 then
    let text := ascii "\x7b\"rc\":" ++ ascii (toString r.1.rc) ++ ascii ",\"err\":\"" ++
      jesc 96 r.1.err ++ ascii "\"\x7d"
    (text.take 255, { s with dev := r.2 })
  else
    let steps := (s.steps + 1) % 2 ^ 32
    let text := ascii "\x7b\"rc\":0,\"token\":" ++ ascii (toString r.1.token) ++
      ascii ",\"steps\":" ++ ascii (toString steps) ++ ascii ",\"step_us\":" ++
      ascii (toString us) ++ ascii "\x7d"
    (text.take 255, { s with dev := r.2, steps })

/-- The response, whether the runner stops, and the state of the device.
SOURCE: 42_gehtp_persistent/main.c:301-379 -/
def handleRequest (E : Engine D) (buf : List UInt8) (us : ℕ) (s : Sys D) :
    List UInt8 × Bool × Sys D :=
  let hdrLen := ofBe32 buf
  let op := jsonGetStr (cstr ((buf.drop 4).take hdrLen)) "op"
  if op = some (ascii "ping") then (ascii "\x7b\"rc\":0,\"pong\":1\x7d", false, s)
  else if op = some (ascii "reset") then
    (ascii "\x7b\"rc\":0,\"reset\":1\x7d", false, { s with dev := E.stateReset s.dev })
  else if op = some (ascii "shutdown") then (ascii "\x7b\"rc\":0,\"bye\":1\x7d", true, s)
  else if op = some (ascii "run") then
    if buf.length < 4 + hdrLen then (errText .shortBody, false, s)
    else if 4096 < buf.length - (4 + hdrLen) then (errText .bodyTooBig, false, s)
    else
      let r := runOp E (buf.drop (4 + hdrLen)) us s
      (r.1, false, r.2)
  else (errText .badOp, false, s)

def serveReq (E : Engine D) (c : ℕ) (buf : List UInt8) (t : Tick) (s : Sys D) : Sys D :=
  if t.fault then { s with runner := .idle }
  else
    let r := handleRequest E buf t.us s
    { r.2.2 with
      runner := .reply r.1 r.2.1
      log := s.log ++ [⟨c, buf, r.1⟩] }

/-- Back in the loop of `main`. -/
def afterReply (stop : Bool) : Runner := if stop then .stopped else .idle

/-- `write_resp` opens the file, which is then empty, and writes the length and the text; if the
name is gone by then, nobody sees them. SOURCE: main.c:173-184 -/
def openResp (json : List UInt8) (stop : Bool) (t : Tick) (s : Sys D) : Sys D :=
  if t.fault then { s with runner := afterReply stop }
  else { s with resp := some [], runner := .opened json stop }

def writeLen (json : List UInt8) (stop : Bool) (t : Tick) (s : Sys D) : Sys D :=
  if t.fault then { s with runner := afterReply stop }
  else { s with resp := s.resp.map (· ++ be32 json.length), runner := .half json stop }

def writeText (json : List UInt8) (stop : Bool) (t : Tick) (s : Sys D) : Sys D :=
  if t.fault then { s with runner := afterReply stop }
  else { s with resp := s.resp.map (· ++ json), runner := afterReply stop }

def runnerStep (E : Engine D) (inBytes : ℕ) (t : Tick) (s : Sys D) : Sys D :=
  match s.runner with
  | .idle => lookIdle t s
  | .header hdrLen => lookHeader inBytes hdrLen t s
  | .body want => lookBody want t s
  | .claim c buf => claimReq c buf t s
  | .drop err => dropReq err s
  | .serve c buf => serveReq E c buf t s
  | .reply json stop => openResp json stop t s
  | .opened json stop => writeLen json stop t s
  | .half json stop => writeText json stop t s
  | .stopped => s

/-- The runner ends when nobody has called for a while. SOURCE: main.c:469-473 -/
def idleExit (s : Sys D) : Option (Sys D) :=
  if s.runner = .idle then some { s with runner := .stopped } else none

/-! ### Runs -/

inductive Event where
  | rmResp (c : ℕ)
  | pushOpen (c : ℕ)
  | pushPart (c n : ℕ)
  | pushDone (c : ℕ)
  | poll (c : ℕ)
  | pull (c : ℕ)
  | finish (c : ℕ)
  | giveUp (c : ℕ)
  | runner (t : Tick)
  | idleExit

/-- Call `c` sends the request `reqs c`. -/
def step (E : Engine D) (reqs : ℕ → Request inBytes) : Event → Sys D → Option (Sys D)
  | .rmResp c, s => rmResp c s
  | .pushOpen c, s => pushOpen c s
  | .pushPart c n, s => pushPart (reqs c).payload c n s
  | .pushDone c, s => pushDone (reqs c).payload c s
  | .poll c, s => poll c s
  | .pull c, s => pull c s
  | .finish c, s => finish c s
  | .giveUp c, s => giveUp c s
  | .runner t, s => some (runnerStep E inBytes t s)
  | .idleExit, s => idleExit s

/-- The runner has just removed both files. SOURCE: main.c:419-420 -/
def start (d : D) : Sys D where
  calls _ := .fresh
  req := none
  resp := none
  runner := .idle
  dev := d
  steps := 0
  log := []

end Gehtp.Model.FileQueue
