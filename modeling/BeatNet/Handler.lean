import BeatNet.Cascade
import BeatNet.Framing

namespace BeatNet

open Numpy Library.Effects

inductive AudioPath (α : Type)
  | file (path : String)
  | signal (audio : List α)
  | channels (audio : List (List α))

inductive Mode
  | realtime | online | offline
  deriving DecidableEq

/-- What a handler is built with. Reading a file, the mean of the channels of a
sample, the features of a signal and one step of the network on one feature
vector come from other packages. -/
structure Setup (α F H : Type) where
  hop : ℕ
  win : ℕ
  hop_pos : 0 < hop
  load : String → List α
  mean : List α → α
  processAudio : List α → List F
  cell : F → H → Activation × H

inductive Estimator (m : Type → Type)
  | PF (process : Activations → m (List Row))
  | DBN (call : List Activation → m (List Row))

/-- The fields of the handler that change. There is no `pred` before the first
activation is extracted. The recurrent state is a field of the network. -/
structure Handler (α H : Type) where
  hidden : H
  pred : Option Activations
  audio : List α
  counter : ℕ
  completed : Bool
  deriving DecidableEq

namespace Setup

variable {α F H : Type} (setup : Setup α F H)

def unroll : List F → H → List Activation × H
  | [], hidden => ([], hidden)
  | feat :: feats, hidden =>
    let out := setup.cell feat hidden
    let rest := unroll feats out.2
    (out.1 :: rest.1, rest.2)

/-- The recurrent layers raise on a sequence without frames. -/
def forward : List F → H → Except PyError (List Activation × H)
  | [], _ => .error .runtimeError
  | feats, hidden => .ok (setup.unroll feats hidden)

def readAudio : AudioPath α → List α
  | .file path => setup.load path
  | .signal audio => audio
  | .channels audio => audio.map setup.mean

def prediction (audio : List α) (counter : ℕ) (hidden : H) :
    Except PyError (List Activation × H) :=
  if counter < 2 then .ok ([silence], hidden)
  else match (setup.processAudio (realtimeSlice setup.hop setup.win counter audio)).getLast? with
    | none => .error .indexError
    | some feat => setup.forward [feat] hidden

end Setup

namespace Handler

variable {α F H : Type} (setup : Setup α F H)

def activationExtractorOnline (audioPath : AudioPath α) (h : Handler α H) :
    Except PyError (Handler α H × List Activation) := do
  let out ← setup.forward (setup.processAudio (setup.readAudio audioPath)) h.hidden
  return ({ h with hidden := out.2 }, out.1)

def loadAudio (audioPath : AudioPath α) (h : Handler α H) : Handler α H :=
  if h.counter = 0 then { h with audio := setup.readAudio audioPath } else h

def extract (h : Handler α H) : Except PyError (Handler α H) :=
  if h.counter < rounds setup.hop h.audio.length then do
    let out ← setup.prediction h.audio h.counter h.hidden
    return { h with pred := some (.rows out.1), hidden := out.2 }
  else return { h with completed := true }

def activationExtractorRealtime (audioPath : AudioPath α) (h : Handler α H) :
    Except PyError (Handler α H) :=
  extract setup (loadAudio setup audioPath h)

section Process

variable {m : Type → Type} [Monad m] [MonadExceptOf PyError m]

/-- The thread gets the rows of `pred` as its arguments. What it raises ends the thread only. -/
def inThread (process : Activations → m (List Row)) : Activations → m Unit
  | .rows [a] => tryCatchThe PyError (discard (process (.row a))) fun _ ↦ pure ()
  | _ => pure ()

def infer (process : Activations → m (List Row)) (thread : Bool) (h : Handler α H)
    (output : Option (List Row)) : m (Option (List Row)) :=
  match h.pred with
  | none => throwThe PyError .attributeError
  | some pred => if thread then do inThread process pred; return output else some <$> process pred

def returned (h : Handler α H) (output : Option (List Row)) : m (Handler α H × List Row) :=
  match output with
  | none => throwThe PyError .unboundLocalError
  | some rows => return (h, rows)

def realtimeLoop (process : Activations → m (List Row)) (thread : Bool)
    (audioPath : AudioPath α) :
    ℕ → Option (List Row) → Handler α H → m (Handler α H × List Row)
  | 0, _, _ => throwThe PyError .outOfFuel
  | fuel + 1, output, h =>
    if h.completed then returned h output
    else do
      let h' ← MonadExcept.ofExcept (activationExtractorRealtime setup audioPath h)
      let output' ← infer process thread h' output
      realtimeLoop process thread audioPath fuel output' { h' with counter := h'.counter + 1 }

/-- `BeatNet.process` in the modes other than streaming. -/
def process (mode : Mode) (thread : Bool) (estimator : Estimator m)
    (audioPath : Option (AudioPath α)) (h : Handler α H) : m (Handler α H × List Row) :=
  match mode, estimator, audioPath with
  | .realtime, .DBN _, _ => throwThe PyError .runtimeError
  | .realtime, .PF _, none => throwThe PyError .attributeError
  | .realtime, .PF process, some audioPath =>
    let fuel := (rounds setup.hop (setup.readAudio audioPath).length).toNat + 2
    realtimeLoop setup process thread audioPath fuel none
      { h with counter := 0, completed := false }
  | .online, _, none => throwThe PyError .attributeError
  | .online, .PF process, some audioPath => do
    let out ← MonadExcept.ofExcept (activationExtractorOnline setup audioPath h)
    let rows ← process (.rows out.2)
    return (out.1, rows)
  | .online, .DBN call, some audioPath => do
    let out ← MonadExcept.ofExcept (activationExtractorOnline setup audioPath h)
    let rows ← call out.2
    return (out.1, rows)
  | .offline, .PF _, _ => throwThe PyError .runtimeError
  | .offline, .DBN _, none => throwThe PyError .attributeError
  | .offline, .DBN call, some audioPath => do
    let out ← MonadExcept.ofExcept (activationExtractorOnline setup audioPath h)
    let rows ← call out.2
    return (out.1, rows)

end Process

end Handler

end BeatNet
