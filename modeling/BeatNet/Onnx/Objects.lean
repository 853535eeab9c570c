import BeatNet.Library.Ledgers
import BeatNet.Onnx.Sessions
import Mathlib.Tactic.Abel

namespace BeatNet.Onnx

open Library.Machines Library.Ledgers Library.Floats

inductive OperatingSystem
  | windows | apple | linux

inductive FftLibrary
  | fftw3 | kissFft

inductive OrtCall
  | createEnv | createSessionOptions | setIntraOpNumThreads | createRunOptions
  | createCpuMemoryInfo | getAllocatorWithDefaultOptions | createSession | sessionGetInputName
  | sessionGetOutputName | createTensorWithDataAsOrtValue | run | getTensorMutableData
  | getTensorTypeAndShape | getDimensionsCount | getDimensions
  deriving DecidableEq

/-- What has to be given back. An object of the runtime is named by the call that has made it. -/
inductive Resource
  | library (name : String)
  | object (call : OrtCall)
  | status
  | converter
  | fftPlan | fftInput | fftOutput
  deriving DecidableEq

inductive Misuse
  | undefined | notHeld
  deriving DecidableEq

abbrev Owning (α : Type) := Ledger Resource Misuse α

/-- What the program finds. The plugin directory is empty if there is none. -/
structure World where
  system : OperatingSystem
  fftLibrary : FftLibrary
  pluginDirectory : String
  opens : String → Bool
  symbol : String → String → Bool
  getApi : Bool
  fileExists : String → Bool
  answers : OrtCall → Bool

namespace PluginUtils

def makePlatformLibName (pre baseName ext : String) : String := pre ++ baseName ++ ext

def loadDynamicLibrary (w : World) (libName : String) : Owning (Option String) :=
  if w.pluginDirectory = "" then return none
  else if w.opens libName then do
    acquire (.library libName)
    return some libName
  else return none

def unloadDynamicLibrary : Option String → Owning Unit
  | none => return
  | some libName => release .notHeld (.library libName)

def getSymbol (w : World) (handle : Option String) (symbolName : String) : Bool :=
  match handle with
  | none => false
  | some libName => w.symbol libName symbolName

end PluginUtils

open PluginUtils

def libname (w : World) (dynamicLibName : String) : String :=
  match w.system with
  | .windows => makePlatformLibName "" dynamicLibName ".dll"
  | .apple => makePlatformLibName "lib" dynamicLibName ".dylib"
  | .linux => makePlatformLibName "lib" dynamicLibName ".so"

def fftwLibname (w : World) : String :=
  match w.system with
  | .windows => makePlatformLibName "lib" ("fftw3f" ++ "-3") ".dll"
  | .apple => makePlatformLibName "lib" "fftw3f" ".dylib"
  | .linux => makePlatformLibName "lib" "fftw3f" ".so"

structure SamplerateObjects where
  handle : Option String
  callbackNew : Bool
  callbackRead : Bool
  strerror : Bool

structure FftObjects where
  handle : Option String
  malloc : Bool
  free : Bool
  plan : Bool
  execute : Bool
  destroyPlan : Bool

structure Objects where
  samplerate : SamplerateObjects
  fft : FftObjects
  onnxruntimeHandle : Option String
  env : Bool
  session : Bool
  sessionOptions : Bool
  memoryInfo : Bool
  allocator : Bool
  runOptions : Bool
  inputName : Bool
  outputName : Bool

/-- A call of `process`, with what the runtime answers, and whether there is a new converter. -/
structure ProcessCall (K : Type) where
  rawInput : List K
  answers : OrtCall → Bool
  converts : Bool

inductive Use (K : Type)
  | setup (sampleRate : Value) (samplesPerBlock : ℤ)
  | process (call : ProcessCall K)

section Program

def require (p : Bool) : Owning Unit := if p then return else throw .undefined

/-- The status of a call that fails is not looked at. -/
def ask (answers : OrtCall → Bool) (call : OrtCall) : Owning Bool :=
  if answers call then return true
  else do
    acquire .status
    return false

def create (answers : OrtCall → Bool) (call : OrtCall) : Owning Bool :=
  if answers call then do
    acquire (.object call)
    return true
  else ask answers call

def drop (p : Bool) (r : Resource) : Owning Unit := if p then release .notHeld r else return

def loadLibsamplerate (w : World) : Owning SamplerateObjects := do
  let handle ← loadDynamicLibrary w (libname w "samplerate")
  return {
    handle := handle
    callbackNew := getSymbol w handle "src_callback_new"
    callbackRead := getSymbol w handle "src_callback_read"
    strerror := getSymbol w handle "src_strerror" }

def loadLibfftw3 (w : World) : Owning FftObjects := do
  let handle ← loadDynamicLibrary w (fftwLibname w)
  return {
    handle := handle
    malloc := getSymbol w handle "fftwf_malloc"
    free := getSymbol w handle "fftwf_free"
    plan := getSymbol w handle "fftwf_plan_dft_r2c_1d"
    execute := getSymbol w handle "fftwf_execute"
    destroyPlan := getSymbol w handle "fftwf_destroy_plan" }

/-- `FFTProcessor::FFTProcessor`. That a function is missing is only reported. -/
def constructFft (w : World) : Owning FftObjects :=
  match w.fftLibrary with
  | .fftw3 => do
    let fft ← loadLibfftw3 w
    require fft.malloc
    acquire .fftInput
    acquire .fftOutput
    require fft.plan
    acquire .fftPlan
    return fft
  | .kissFft => do
    acquire .fftPlan
    acquire .fftInput
    acquire .fftOutput
    return ⟨none, false, false, false, false, false⟩

/-- `FFTProcessor::~FFTProcessor` -/
def destroyFft (w : World) (fft : FftObjects) : Owning Unit :=
  match w.fftLibrary with
  | .fftw3 => do
    require fft.destroyPlan
    release .notHeld .fftPlan
    require fft.free
    release .notHeld .fftInput
    release .notHeld .fftOutput
    unloadDynamicLibrary fft.handle
  | .kissFft => do
    release .notHeld .fftPlan
    release .notHeld .fftInput
    release .notHeld .fftOutput

/-- The handle stays where it is when the function returns false. -/
def loadONNXRuntime (w : World) (dynamicLibName : String) : Owning (Option String × Bool) := do
  let handle ← loadDynamicLibrary w (libname w dynamicLibName)
  return (handle, getSymbol w handle "OrtGetApiBase" && w.getApi)

def defaultModelPath : String := "beatnet_bda.onnx"

def modelPathOf (w : World) (modelPath : String) : String :=
  if modelPath = "" then w.pluginDirectory ++ "/" ++ defaultModelPath else modelPath

def destroyMembers (w : World) (samplerate : SamplerateObjects) (fft : FftObjects) :
    Owning Unit := do
  destroyFft w fft
  unloadDynamicLibrary samplerate.handle

def createObjects (w : World) (samplerate : SamplerateObjects) (fft : FftObjects)
    (onnxruntimeHandle : Option String) : Owning Objects := do
  let env ← create w.answers .createEnv
  let sessionOptions ← create w.answers .createSessionOptions
  require sessionOptions
  let _ ← ask w.answers .setIntraOpNumThreads
  let runOptions ← create w.answers .createRunOptions
  let memoryInfo ← create w.answers .createCpuMemoryInfo
  let allocator ← ask w.answers .getAllocatorWithDefaultOptions
  require env
  let session ← create w.answers .createSession
  require (session && allocator)
  let inputName ← create w.answers .sessionGetInputName
  let outputName ← create w.answers .sessionGetOutputName
  return {
    samplerate := samplerate
    fft := fft
    onnxruntimeHandle := onnxruntimeHandle
    env := env
    session := session
    sessionOptions := sessionOptions
    memoryInfo := memoryInfo
    allocator := allocator
    runOptions := runOptions
    inputName := inputName
    outputName := outputName }

def construct (w : World) (modelPath : String) : Owning (Except String Objects) := do
  let samplerate ← loadLibsamplerate w
  let fft ← constructFft w
  let runtime ← loadONNXRuntime w "onnxruntime"
  if !runtime.2 then do
    destroyMembers w samplerate fft
    return .error "Failed to load ONNX Runtime dynamically."
  else if !w.fileExists (modelPathOf w modelPath) then do
    destroyMembers w samplerate fft
    return .error ("Model path does not exist: " ++ modelPathOf w modelPath)
  else do
    let objects ← createObjects w samplerate fft runtime.1
    return .ok objects

variable {K σ : Type} [Field K] [LinearOrder K]

/-- A tracker, and whether a setup has given values to the fields of its resampler. -/
abbrev Used (K : Type) := Bool × Tracker (Resampler K) K

/-- The fields have values, and the buffer has room for what is requested. -/
def prepared (b : Used K) : Bool :=
  b.1 && decide (b.2.resampler.outputFrameCount ≤ b.2.resampler.outputBuffer.length)

end Program

namespace World

def handle (w : World) (libName : String) : Option String :=
  if w.pluginDirectory = "" then none else if w.opens libName then some libName else none

def samplerate (w : World) : SamplerateObjects where
  handle := w.handle (libname w "samplerate")
  callbackNew := getSymbol w (w.handle (libname w "samplerate")) "src_callback_new"
  callbackRead := getSymbol w (w.handle (libname w "samplerate")) "src_callback_read"
  strerror := getSymbol w (w.handle (libname w "samplerate")) "src_strerror"

def fftw (w : World) : FftObjects where
  handle := w.handle (fftwLibname w)
  malloc := getSymbol w (w.handle (fftwLibname w)) "fftwf_malloc"
  free := getSymbol w (w.handle (fftwLibname w)) "fftwf_free"
  plan := getSymbol w (w.handle (fftwLibname w)) "fftwf_plan_dft_r2c_1d"
  execute := getSymbol w (w.handle (fftwLibname w)) "fftwf_execute"
  destroyPlan := getSymbol w (w.handle (fftwLibname w)) "fftwf_destroy_plan"

def fft (w : World) : FftObjects :=
  match w.fftLibrary with
  | .fftw3 => w.fftw
  | .kissFft => ⟨none, false, false, false, false, false⟩

def runtime (w : World) : Option String := w.handle (libname w "onnxruntime")

def objects (w : World) : Objects where
  samplerate := w.samplerate
  fft := w.fft
  onnxruntimeHandle := w.runtime
  env := w.answers .createEnv
  session := w.answers .createSession
  sessionOptions := w.answers .createSessionOptions
  memoryInfo := w.answers .createCpuMemoryInfo
  allocator := w.answers .getAllocatorWithDefaultOptions
  runOptions := w.answers .createRunOptions
  inputName := w.answers .sessionGetInputName
  outputName := w.answers .sessionGetOutputName

structure Complete (w : World) : Prop where
  samplerate :
    (w.samplerate.callbackNew && w.samplerate.callbackRead && w.samplerate.strerror) = true
  fftw : w.fftLibrary = .fftw3 →
    (w.fftw.malloc && w.fftw.free && w.fftw.plan && w.fftw.execute && w.fftw.destroyPlan) = true
  answers : ∀ call, call ≠ .setIntraOpNumThreads → call ≠ .createRunOptions → w.answers call = true

end World

def ProcessCall.Complete {K : Type} (call : ProcessCall K) : Prop :=
  ∀ c, c ≠ .getDimensions → call.answers c = true

def library : Option String → Multiset Resource
  | none => 0
  | some libName => {.library libName}

section Rules

variable {P : Prop} {p : Bool} {r : Resource} {rest : Multiset Resource} {E : Misuse → Prop}
  {α : Type} {f : Unit → Owning α} {R : α → Prop} {last : α → Multiset Resource}

end Rules

section Members

variable {P : Prop} {E : Misuse → Prop} (w : World)

end Members

section Calls

variable {P : Prop} {K σ : Type} {w : World}

variable [Field K] [LinearOrder K] {m : Machine} {conv : Converter K σ} {analysis : Analysis K}

def Use.step (m : Machine) (conv : Converter K σ) (analysis : Analysis K) :
    Use K → Used K → Bool × Used K
  | .setup sampleRate samplesPerBlock, b =>
    match b.2.setup m sampleRate samplesPerBlock with
    | .done t => (false, b.1 || decide (0 < samplesPerBlock), t)
    | .thrown t => (false, b.1, t)
    | .undefined => (false, b)
  | .process call, b =>
    let out := b.2.preprocess (wired conv analysis) call.rawInput
    (out.1, b.1, out.2)

def Use.converts : Use K → Bool
  | .setup _ _ => false
  | .process call => !call.rawInput.isEmpty && call.converts

/-- The cast of a setup is defined. The runtime answers what it has to, and a block is resampled only
when the resampler has been set up. -/
def Use.Allowed (m : Machine) (b : Used K) : Use K → Prop
  | .setup sampleRate samplesPerBlock => b.2.setup m sampleRate samplesPerBlock ≠ .undefined
  | .process call => call.Complete ∧ (call.rawInput = [] ∨ prepared b = true)

def Proper (m : Machine) (conv : Converter K σ) (analysis : Analysis K) :
    List (Use K) → Used K → Prop
  | [], _ => True
  | use :: uses, b => use.Allowed m b ∧ Proper m conv analysis uses (use.step m conv analysis b).2

theorem prepared_process {b : Used K} (h : prepared b = true) (call : ProcessCall K) :
    prepared ((Use.process call).step m conv analysis b).2 = true := by
  obtain ⟨hset, hroom⟩ := Bool.and_eq_true_iff.mp h
  have hresampler : (b.2.preprocess (wired conv analysis) call.rawInput).2.resampler =
      (b.2.resampler.resample conv call.rawInput).2 := Tracker.preprocess_resampler _ _ _
  have hcount : (b.2.resampler.resample conv call.rawInput).2.outputFrameCount =
      b.2.resampler.outputFrameCount := by
    rw [Resampler.resample]
    split_ifs <;> rfl
  refine Bool.and_eq_true_iff.mpr ⟨hset, ?_⟩
  rw [decide_eq_true_eq] at hroom ⊢
  rwa [Use.step, hresampler, hcount, Resampler.length_resample_output]

/-- After a setup that is accepted, blocks can be processed. -/
theorem proper_of_setup {sampleRate : Value} {samplesPerBlock : ℤ} {b : Used K}
    {t : Tracker (Resampler K) K} {calls : List (ProcessCall K)} (hsize : 0 < samplesPerBlock)
    (ht : b.2.setup m sampleRate samplesPerBlock = .done t)
    (hcalls : ∀ call ∈ calls, call.Complete) :
    Proper m conv analysis (.setup sampleRate samplesPerBlock :: calls.map .process) b := by
  have hprepared :
      prepared ((Use.setup sampleRate samplesPerBlock).step m conv analysis b).2 = true := by
    obtain ⟨r, hr, rfl⟩ := Tracker.setup_done.mp ht
    have hsized := Resampler.sized_setup hsize hr
    have hset : (b.1 || decide (0 < samplesPerBlock)) = true := by
      rw [decide_eq_true hsize, Bool.or_true]
    simp only [Use.step, ht]
    exact Bool.and_eq_true_iff.mpr ⟨hset, decide_eq_true hsized.le⟩
  have hallowed : (Use.setup sampleRate samplesPerBlock).Allowed m b := by
    simp [Use.Allowed, ht]
  refine ⟨hallowed, ?_⟩
  generalize ((Use.setup sampleRate samplesPerBlock).step m conv analysis b).2 = b' at hprepared
  induction calls generalizing b' with
  | nil => trivial
  | cons call calls ih =>
    obtain ⟨hcall, hcalls⟩ := List.forall_mem_cons.mp hcalls
    exact ⟨⟨hcall, .inr hprepared⟩, ih hcalls _ (prepared_process hprepared call)⟩

end Calls

end BeatNet.Onnx
