import FluxServe.Engine.Request
import FluxServe.Framework.AssocList
import Mathlib.Data.Rat.Floor

namespace FluxServe.Engine

/-- A value of `sampling_params`. A float without a value is an infinity or not a number. -/
inductive ParamValue
  | none
  | bool (b : Bool)
  | int (n : Int)
  | float (x : Option Rat)
  | str (text : String)
  deriving DecidableEq, Repr

abbrev SamplingParams := List (String × ParamValue)

/-- The fields of `ServerArgs` that the input processor reads. -/
structure ServerArgs where
  maxModelLen : Int := 2048
  generationBlockSize : Int := 1
  samplingDefaults : Option SamplingParams := none
  speculativeContextMargin : Int := 0

/-- What `GenerateReqInput.iter_items` yields. -/
structure RequestItem where
  rid : RequestId
  text : Option String := none
  inputIds : Option (List Token) := none
  samplingParams : Option SamplingParams := none

inductive ProcessorFault
  | temperature
  | seed
  | filter
  | penalty (name : String)
  | notAnInteger
  | inputTooLong (length : Nat) (maxModelLen : Int)
  | noRoom (length : Nat) (generationBlockSize maxModelLen : Int)
  deriving DecidableEq, Repr

namespace ParamValue

/-- The number a value compares as; a bool is an integer. -/
def number : ParamValue → Option Rat
  | bool b => some (if b then 1 else 0)
  | int n => some n
  | float x => x
  | _ => Option.none

/-- `int` on a string: a sign and digits, between blanks; an underscore may part two digits. -/
def parseInt (text : String) : Option Int :=
  let text := text.trimAscii.toString
  let (negative,digits) :=
    if text.startsWith "-" then (true,text.drop 1) else
      (false,if text.startsWith "+" then text.drop 1 else text)
  let groups := digits.toString.splitOn "_"
  if groups.all fun g => !g.isEmpty && g.all Char.isDigit then
    (String.join groups).toNat?.map fun n => if negative then -(n : Int) else n
  else Option.none

/-- `int`, which cuts a float towards zero. -/
def toInt : ParamValue → Option Int
  | bool b => some (if b then 1 else 0)
  | int n => some n
  | float x => x.map fun x => if 0 ≤ x then ⌊x⌋ else ⌈x⌉
  | str text => parseInt text
  | none => Option.none

/-- `bool`; what is not a number holds. -/
def truth : ParamValue → Bool
  | none => false
  | str text => !text.isEmpty
  | float Option.none => true
  | v => v.number ≠ some 0

def text : ParamValue → String
  | none => "None"
  | bool b => if b then "True" else "False"
  | int n => toString n
  | float (some x) => toString x
  | float Option.none => "nan"
  | str text => text

end ParamValue

section Params

variable (params : SamplingParams)

def param (name : String) (default : ParamValue) : ParamValue := (params.lookup name).getD default

/-- `dict(defaults) | params`. -/
def mergeParams (defaults : SamplingParams) : SamplingParams :=
  (defaults.map fun e => (e.1,param params e.1 e.2)) ++
    params.filter fun e => (defaults.lookup e.1).isNone

def setParam (name : String) (value : ParamValue) : SamplingParams :=
  if (params.lookup name).isSome then
    params.map fun e => if e.1 = name then (name,value) else e
  else params ++ [(name,value)]

/-- `validate_sampling_params` of the Nemotron decoders. -/
def validateSamplingParams : Except ProcessorFault Unit := do
  match param params "temperature" (.int 0) with
  | .int n => if n < 0 then throw .temperature
  | .float (some x) => if x < 0 then throw .temperature
  | _ => throw .temperature
  match param params "seed" .none with
  | .none => pure ()
  | .int n => if ¬(0 ≤ n ∧ n < 2^63) then throw .seed
  | _ => throw .seed
  if (param params "top_p" (.int 1)).number ≠ some 1 ∨
      (param params "top_k" (.int (-1))).number ∉ [some (-1),some 0] then
    throw .filter
  for name in ["frequency_penalty","presence_penalty"] do
    if (param params name (.int 0)).number ≠ some 0 then throw (.penalty name)

end Params

namespace ServerArgs

variable (args : ServerArgs)

/-- The defaults under the parameters of a request, and its seed; `randbits` is what
`secrets.randbits` gives. -/
def resolveParams (randbits : Nat) (params : SamplingParams) :
    Except ProcessorFault SamplingParams :=
  match args.samplingDefaults with
  | none => pure params
  | some defaults => do
    let params := mergeParams params defaults
    validateSamplingParams params
    return if param params "seed" .none = .none then setParam params "seed" (.int randbits)
      else params

/-- The context that whole generation blocks can use behind a prompt. -/
def usableContext (length : Nat) : Int :=
  let generationBlockSize := max 1 args.generationBlockSize
  (args.maxModelLen-length-args.speculativeContextMargin)/generationBlockSize*generationBlockSize

/-- `InputProcessor.make_state`, over the tokenizer's `encode`. -/
def makeState (encode : String → List Token) (randbits : Nat) (item : RequestItem) :
    Except ProcessorFault RequestState := do
  let promptText := item.text.getD ""
  let inputIds := item.inputIds.getD (encode promptText)
  let params ← args.resolveParams randbits (item.samplingParams.getD [])
  if args.maxModelLen-inputIds.length ≤ 0 then
    throw (.inputTooLong inputIds.length args.maxModelLen)
  let usable := args.usableContext inputIds.length
  if usable ≤ 0 then
    throw (.noRoom inputIds.length (max 1 args.generationBlockSize) args.maxModelLen)
  let some requested := (param params "max_tokens" (param params "max_new_tokens" (.int 128))).toInt
    | throw .notAnInteger
  return {
    rid := item.rid
    inputIds
    maxNewTokens := (max 1 (min requested usable)).toNat
    ignoreEos := (param params "ignore_eos" (.bool false)).truth
    promptText
    samplingParams := params.map fun e => (e.1,e.2.text) }

end ServerArgs

end FluxServe.Engine
