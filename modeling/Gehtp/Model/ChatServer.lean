import Mathlib.Algebra.Order.Ring.Rat
import Gehtp.Lib.Runs

/-!
# Chat requests on one model slot

`scripts/gehtp_server.py`, with `scripts/sessions.py` and the calls of `scripts/persistent_runtime.py`
that it makes: a chat request waits for a permit of the queue, opens a session and generates tokens
on the device, step by step. The device has one decode state for the slot, which all requests share.

A request takes a step from one `await` or `yield` to the next; in a stream the client may leave
after any chunk, also between the last token and the end. A handler may be cancelled where it
waits, the generator of a streamed response may be closed or never be started, and code outside of
a `try` may raise. A device run is started in a thread; if the request is cancelled meanwhile, the
run takes place all the same.

The device, the tokenizer and what is sampled at a positive temperature are parameters; resetting
the device succeeds. Numbers of the device are rational. Checks before the request is queued, the
metrics and the log are left out.
-/

set_option autoImplicit false

namespace Gehtp.Model.ChatServer

/-- SOURCE: gehtp_server.py:66-68 -/
def maxConcurrentRequests : ℕ := 4

def maxQueuedRequests : ℕ := 16

/-- Rows of the position table. SOURCE: persistent_runtime.py:39 -/
def maxPos : ℕ := 64

/-! ### The slot -/

/-- What a run returns. -/
inductive Result where
  | token (t : ℤ)
  | logits (l : List ℚ)
  deriving DecidableEq, Repr

/-- A decode state that a reset clears and a run with a token at a position advances; a run may
also fail. -/
structure Device (D : Type) where
  cleared : D
  advance : ℤ → ℕ → D → Option Result × D

/-- The slot, with the flag of a pending cancellation. -/
structure Slot (D : Type) where
  dev : D
  cancelled : Bool
  deriving DecidableEq, Repr

variable {D : Type}

/-- SOURCE: persistent_runtime.py:362-367 -/
def Slot.reset (V : Device D) (_ : Slot D) : Slot D := ⟨V.cleared, false⟩

/-- SOURCE: persistent_runtime.py:357-360 -/
def Slot.cancel (s : Slot D) : Slot D := { s with cancelled := true }

/-- SOURCE: persistent_runtime.py:326-350 -/
def Slot.run (V : Device D) (kvMax : ℕ) (tok : ℤ) (position : ℕ) (s : Slot D) :
    Option Result × Slot D :=
  if s.cancelled then (none, { s with cancelled := false })
  else if maxPos ≤ position ∨ kvMax ≤ position then (none, s)
  else
    let r := V.advance tok position s.dev
    (r.1, { s with dev := r.2 })

/-! ### Generation -/

/-- A request, as far as it has been checked before it is queued. -/
structure Chat where
  inputIds : List ℤ
  maxTokens : ℕ
  stop : List (List Char)
  /-- The temperature is zero. -/
  greedy : Bool
  stream : Bool
  kvMax : ℕ

inductive Outcome where
  | stop | length | cancelled | error
  deriving DecidableEq, Repr

/-- Where `_run_generation` stands. -/
inductive GenPc where
  | start
  /-- Asks whether the client is still there, before this part of the prompt. -/
  | promptCheck (rest : List ℤ)
  | promptRun (tok : ℤ) (rest : List ℤ)
  /-- Asks, with so many tokens left. -/
  | check (left : ℕ)
  | decodeRun (left : ℕ)
  /-- The last token is handed out; the end is still to be said. -/
  | last (how : Outcome)
  | done (how : Outcome)
  deriving DecidableEq, Repr

structure Gen where
  pc : GenPc
  /-- Also the position in the cache. -/
  position : ℕ
  /-- Tokens that the session counts. -/
  kvPosition : ℕ
  text : List Char
  lastToken : ℤ
  result : Option Result
  /-- The tokens, with their texts. -/
  out : List (ℤ × List Char)
  deriving DecidableEq, Repr

def Gen.init : Gen := ⟨.start, 0, 0, [], 0, none, []⟩

def Gen.finish (g : Gen) (how : Outcome) : Gen := { g with pc := .done how }

/-- What the surroundings say in a step: whether the client is gone, and what is sampled. -/
structure Obs where
  disconnected : Bool
  sampled : ℤ

/-- The first place of the sequence in the text. -/
def findSeq (seq : List Char) : List Char → Option ℕ
  | [] => if seq.isEmpty then some 0 else none
  | c :: l => if seq.isPrefixOf (c :: l) then some 0 else (findSeq seq l).map (· + 1)

/-- SOURCE: gehtp_server.py:223-232 -/
def findStop (text : List Char) : List (List Char) → Option ℕ → Option ℕ
  | [], best => best
  | seq :: seqs, best =>
    if seq.isEmpty then findStop text seqs best
    else
      match findSeq seq text, best with
      | some i, none => findStop text seqs (some i)
      | some i, some b => findStop text seqs (some (if i < b then i else b))
      | none, _ => findStop text seqs best

/-- The first place of the greatest number, after the best of those before. -/
def argmaxFrom : List ℚ → ℕ → ℕ → ℚ → ℕ
  | [], _, best, _ => best
  | x :: l, i, best, v => if v < x then argmaxFrom l (i + 1) i x else argmaxFrom l (i + 1) best v

/-- SOURCE: sampler.py:106-110 -/
def greedySample : List ℚ → ℤ
  | [] => 0
  | x :: l => argmaxFrom l 1 0 x

/-- SOURCE: gehtp_server.py:342-351 -/
def pickToken (c : Chat) (o : Obs) : Result → Option ℤ
  | .logits [] => none
  | .logits l => some (if c.greedy then greedySample l else o.sampled)
  | .token t => some t

/-- The session counts more tokens, if there is room. SOURCE: sessions.py:39-47 -/
def advanceSession (c : Chat) (g : Gen) (n : ℕ) : Option Gen :=
  if c.kvMax < g.kvPosition + n then none else some { g with kvPosition := g.kvPosition + n }

/-- The loop goes on with so many tokens left. -/
def enterLoop (g : Gen) : ℕ → Gen
  | 0 => g.finish .length
  | n + 1 => { g with pc := .check n }

/-- A token is handed out, with so many to come. -/
def handOut (g : Gen) : ℕ → Gen
  | 0 => { g with pc := .last .length }
  | n + 1 => { g with pc := .check n }

/-- A result is there: take its token, look for a stop sequence and hand it out.
SOURCE: gehtp_server.py:342-381 -/
def useResult (decode : ℤ → Option (List Char)) (c : Chat) (o : Obs) (left : ℕ) (r : Result)
    (g : Gen) : Gen :=
  match pickToken c o r with
  | none => g.finish .error
  | some t =>
    let g := { g with result := none, lastToken := t }
    match decode t with
    | none => g.finish .error
    | some w =>
      let merged := g.text ++ w
      match findStop merged c.stop none with
      | some i =>
        let emitted := (merged.take i).drop g.text.length
        let g' := (advanceSession c g 1).getD g
        if emitted.isEmpty then { g' with text := merged.take i, pc := .done .stop }
        else { g' with text := merged.take i, out := g.out ++ [(t, emitted)], pc := .last .stop }
      | none =>
        let g := { g with text := merged }
        match advanceSession c g 1 with
        | none => g.finish .length
        | some g => handOut { g with out := g.out ++ [(t, w)] } left

/-- The prompt has been fed. SOURCE: gehtp_server.py:312-316 -/
def promptDone (c : Chat) (g : Gen) : Gen :=
  match advanceSession c g c.inputIds.length with
  | none => g.finish .length
  | some g => enterLoop g c.maxTokens

/-- The client is gone. SOURCE: gehtp_server.py:293-301, 320-328 -/
def quitGen (V : Device D) (g : Gen) (s : Slot D) : Gen × Slot D :=
  (g.finish .cancelled, s.cancel.reset V)

/-- One step of `_run_generation`. SOURCE: gehtp_server.py:235-384 -/
def genStep (V : Device D) (decode : ℤ → Option (List Char)) (c : Chat) (o : Obs) (g : Gen)
    (s : Slot D) : Gen × Slot D :=
  match g.pc with
  | .start =>
    match c.inputIds with
    | [] => (g.finish .error, s)
    | ids => ({ g with pc := .promptCheck ids }, s.reset V)
  | .promptCheck [] => (promptDone c g, s)
  | .promptCheck (tok :: rest) =>
    if o.disconnected then quitGen V g s else ({ g with pc := .promptRun tok rest }, s)
  | .promptRun tok rest =>
    match s.run V c.kvMax tok g.position with
    | (none, s) => (g.finish .error, s)
    | (some r, s) =>
      let g := { g with position := g.position + 1, result := some r }
      match rest with
      | [] => (promptDone c g, s)
      | rest => ({ g with pc := .promptCheck rest }, s)
  | .check left =>
    if o.disconnected then quitGen V g s
    else
      match g.result with
      | some r => (useResult decode c o left r g, s)
      | none => ({ g with pc := .decodeRun left }, s)
  | .decodeRun left =>
    match s.run V c.kvMax g.lastToken g.position with
    | (none, s) => (g.finish .error, s)
    | (some r, s) =>
      (useResult decode c o left r { g with position := g.position + 1 }, s)
  | .last how => (g.finish how, s)
  | .done _ => (g, s)

/-- The end is said after the last token. -/
def Gen.sayEnd (g : Gen) : Gen :=
  match g.pc with
  | .last how => g.finish how
  | _ => g

/-- The loop of the generation phase while the client stays and the device answers: the results of
the runs one after the other, the first from the last part of the prompt. The first argument bounds
the rounds. SOURCE: gehtp_server.py:318-384 -/
def generationPhase (decode : ℤ → Option (List Char)) (c : Chat) (o : ℕ → Obs) (results : ℕ → Result) :
    ℕ → ℕ → Gen → Gen
  | 0, _, g => g.sayEnd
  | n + 1, k, g =>
    match g.pc with
    | .check left =>
      let g := if k = 0 then g else { g with position := g.position + 1 }
      generationPhase decode c o results n (k + 1) (useResult decode c (o k) left (results k) g)
    | _ => g.sayEnd

/-- The prompt has been fed, and its last part has given a result. -/
def Gen.fed (c : Chat) (r : Result) : Gen :=
  { Gen.init with position := c.inputIds.length, result := some r }

/-! ### Handlers -/

/-- Where the handler of a request stands. -/
inductive Phase where
  | idle
  | rejected
  | waiting
  /-- It has been given a permit and has not gone on yet. -/
  | granted
  /-- `acquire` has returned. -/
  | acquired
  /-- The response is made, its generator not started. -/
  | streamReady
  | running
  | ended
  deriving DecidableEq, Repr

inductive SessionState where
  | none | active | released
  deriving DecidableEq, Repr

structure Handler where
  phase : Phase
  gen : Gen
  session : SessionState
  /-- How often it has got a permit from `acquire`, and given one back. -/
  acquires : ℕ
  releases : ℕ
  deriving DecidableEq, Repr

def Handler.init : Handler := ⟨.idle, Gen.init, .none, 0, 0⟩

def Handler.enter (h : Handler) (p : Phase) : Handler := { h with phase := p }

/-- `acquire` returns. -/
def Handler.acquire (h : Handler) : Handler :=
  { h with phase := .acquired, acquires := h.acquires + 1 }

def Handler.openSession (h : Handler) (p : Phase) : Handler :=
  { h with phase := p, session := .active }

/-- The session is released and the permit given back. -/
def Handler.close (h : Handler) : Handler :=
  { h with phase := .ended, session := .released, releases := h.releases + 1 }

/-- A device run whose request is gone. -/
structure LateRun where
  kvMax : ℕ
  tok : ℤ
  position : ℕ

structure Server (D : Type) where
  handlers : ℕ → Handler
  /-- The requests so far. -/
  seen : List ℕ
  /-- `_semaphore._value` -/
  free : ℕ
  waiters : List ℕ
  /-- `_queued` -/
  queued : ℕ
  slot : Slot D
  late : List LateRun

def Server.set (s : Server D) (r : ℕ) (h : Handler) : Server D :=
  { s with handlers := Function.update s.handlers r h }

def Server.setPhase (s : Server D) (r : ℕ) (p : Phase) : Server D :=
  s.set r ((s.handlers r).enter p)

/-- Give back a permit: the first that waits gets it. -/
def putPermit (s : Server D) : Server D :=
  match s.waiters with
  | [] => { s with free := s.free + 1 }
  | r :: rest => Server.setPhase { s with waiters := rest } r .granted

/-- SOURCE: gehtp_server.py:82-101 -/
def arrive (r : ℕ) (s : Server D) : Option (Server D) :=
  match (s.handlers r).phase with
  | .idle =>
    let seen := s.seen ++ [r]
    if maxQueuedRequests ≤ s.queued then some (Server.setPhase { s with seen } r .rejected)
    else if 0 < s.free ∧ s.waiters = [] then
      some (Server.set { s with seen, free := s.free - 1 } r (s.handlers r).acquire)
    else
      let waiters := s.waiters ++ [r]
      some (Server.setPhase { s with seen, queued := s.queued + 1, waiters } r .waiting)
  | _ => none

/-- `acquire` goes on with its permit. SOURCE: gehtp_server.py:99-101 -/
def resume (r : ℕ) (s : Server D) : Option (Server D) :=
  match (s.handlers r).phase with
  | .granted => some (Server.set { s with queued := s.queued - 1 } r (s.handlers r).acquire)
  | _ => none

/-- The handler is cancelled while it waits for a permit; one that it has been given goes on to the
next. SOURCE: gehtp_server.py:95-98 -/
def cancelWait (r : ℕ) (s : Server D) : Option (Server D) :=
  match (s.handlers r).phase with
  | .waiting =>
    let waiters := s.waiters.erase r
    some (Server.setPhase { s with queued := s.queued - 1, waiters } r .ended)
  | .granted => some (putPermit (Server.setPhase { s with queued := s.queued - 1 } r .ended))
  | _ => none

/-- From the permit to the response or the loop. If an error is raised here, nothing catches it.
SOURCE: gehtp_server.py:603-629, 724-728 -/
def setUp (chats : ℕ → Chat) (r : ℕ) (fault : Bool) (s : Server D) : Option (Server D) :=
  match (s.handlers r).phase with
  | .acquired =>
    if fault then some (s.setPhase r .ended)
    else if (chats r).stream then some (s.set r ((s.handlers r).openSession .streamReady))
    else some (s.set r ((s.handlers r).openSession .running))
  | _ => none

/-- The first step of `generate`. SOURCE: gehtp_server.py:630-635 -/
def startStream (r : ℕ) (s : Server D) : Option (Server D) :=
  match (s.handlers r).phase with
  | .streamReady => some (s.setPhase r .running)
  | _ => none

/-- The response is given up before the first step of `generate`. -/
def dropStream (r : ℕ) (s : Server D) : Option (Server D) :=
  match (s.handlers r).phase with
  | .streamReady => some (s.setPhase r .ended)
  | _ => none

/-- SOURCE: gehtp_server.py:720-721, 761-762, 767-768, 784-785 -/
def closeChat (r : ℕ) (s : Server D) : Server D := putPermit (s.set r (s.handlers r).close)

/-- A device run that is waited for goes on without the request. -/
def leaveRun (chats : ℕ → Chat) (r : ℕ) (s : Server D) : Server D :=
  let g := (s.handlers r).gen
  match g.pc with
  | .promptRun tok _ => { s with late := ⟨(chats r).kvMax, tok, g.position⟩ :: s.late }
  | .decodeRun _ => { s with late := ⟨(chats r).kvMax, g.lastToken, g.position⟩ :: s.late }
  | _ => s

/-- The stream has been completed or has failed. -/
def settled (g : Gen) : Bool :=
  match g.pc with
  | .done .stop | .done .length | .done .error => true
  | _ => false

/-- The `finally` of `generate`. If resetting the device raises anything but a device error, the
rest is not reached. SOURCE: gehtp_server.py:706-722 -/
def finallyStream (V : Device D) (r : ℕ) (fault : Bool) (s : Server D) : Server D :=
  if settled (s.handlers r).gen then closeChat r s
  else if fault then s.setPhase r .ended
  else closeChat r { s with slot := s.slot.cancel.reset V }

/-- Generation waits for the client or for the device. -/
def GenPc.awaits : GenPc → Bool
  | .promptCheck _ | .promptRun _ _ | .check _ | .decodeRun _ => true
  | .start | .last _ | .done _ => false

/-- The handler is cancelled where it waits, or the generator of a stream is closed where it
stands. A plain response catches only what is an `Exception`. SOURCE: gehtp_server.py:706, 760 -/
def cancel (V : Device D) (chats : ℕ → Chat) (r : ℕ) (fault : Bool) (s : Server D) :
    Option (Server D) :=
  match (s.handlers r).phase with
  | .running =>
    if (chats r).stream then some (finallyStream V r fault (leaveRun chats r s))
    else if (s.handlers r).gen.pc.awaits then some ((leaveRun chats r s).setPhase r .ended)
    else none
  | _ => none

/-- Something else is raised during generation. SOURCE: gehtp_server.py:706, 760-764 -/
def raise (V : Device D) (chats : ℕ → Chat) (r : ℕ) (fault : Bool) (s : Server D) :
    Option (Server D) :=
  match (s.handlers r).phase with
  | .running => some (if (chats r).stream then finallyStream V r fault s else closeChat r s)
  | _ => none

def generate (V : Device D) (decode : ℤ → Option (List Char)) (chats : ℕ → Chat) (r : ℕ) (o : Obs)
    (s : Server D) : Option (Server D) :=
  let h := s.handlers r
  match h.phase with
  | .running =>
    let gs := genStep V decode (chats r) o h.gen s.slot
    some (Server.set { s with slot := gs.2 } r { h with gen := gs.1 })
  | _ => none

/-- Generation is over. In the plain path an error after a normal end is not caught.
SOURCE: gehtp_server.py:682-722, 760-785 -/
def conclude (V : Device D) (chats : ℕ → Chat) (r : ℕ) (fault : Bool) (s : Server D) :
    Option (Server D) :=
  let h := s.handlers r
  match h.phase, h.gen.pc with
  | .running, .done how =>
    if (chats r).stream then some (finallyStream V r fault s)
    else if fault ∧ (how = .stop ∨ how = .length) then some (s.setPhase r .ended)
    else some (closeChat r s)
  | _, _ => none

/-- A run whose request is gone takes place. -/
def runLate (V : Device D) (s : Server D) : Option (Server D) :=
  match s.late with
  | [] => none
  | l :: rest => some { s with slot := (s.slot.run V l.kvMax l.tok l.position).2, late := rest }

/-! ### Runs -/

inductive Event where
  | arrive (r : ℕ)
  | resume (r : ℕ)
  | cancelWait (r : ℕ)
  | setUp (r : ℕ) (fault : Bool)
  | startStream (r : ℕ)
  | dropStream (r : ℕ)
  | generate (r : ℕ) (o : Obs)
  | cancel (r : ℕ) (fault : Bool)
  | raise (r : ℕ) (fault : Bool)
  | conclude (r : ℕ) (fault : Bool)
  | runLate

def step (V : Device D) (decode : ℤ → Option (List Char)) (chats : ℕ → Chat) :
    Event → Server D → Option (Server D)
  | .arrive r, s => arrive r s
  | .resume r, s => resume r s
  | .cancelWait r, s => cancelWait r s
  | .setUp r fault, s => setUp chats r fault s
  | .startStream r, s => startStream r s
  | .dropStream r, s => dropStream r s
  | .generate r o, s => generate V decode chats r o s
  | .cancel r fault, s => cancel V chats r fault s
  | .raise r fault, s => raise V chats r fault s
  | .conclude r fault, s => conclude V chats r fault s
  | .runLate, s => runLate V s

/-- The server before the first request; the device may be in any state. -/
def start (slot : Slot D) : Server D where
  handlers _ := Handler.init
  seen := []
  free := maxConcurrentRequests
  waiters := []
  queued := 0
  slot
  late := []

end Gehtp.Model.ChatServer
