import FluxServe.Scheduler.State

namespace FluxServe.Engine

/-- `GenerateReqOutput`, without the timings of its `meta`. -/
structure Output where
  rid : RequestId
  text : String := ""
  tokenIds : List Token := []
  finishReason : Option String := none
  error : Option String := none
  deriving DecidableEq, Repr

def Output.finished (o : Output) : Bool := o.finishReason.isSome || o.error.isSome

/-- `RequestState` of the engine. Of its times only whether it was scheduled is read; values of
`sampling_params` are kept as text. -/
structure RequestState where
  rid : RequestId
  inputIds : List Token
  maxNewTokens : Nat
  ignoreEos : Bool := false
  promptText : String := ""
  samplingParams : List (String × String) := []
  scheduled : Bool := false
  outputIds : List Token := []
  decodedText : String := ""
  finishedReason : Option String := none
  planPrefillDone : Bool := false
  currentDecodeBlock : Int := 0
  queue : List Output := []
  deriving DecidableEq, Repr

namespace RequestState

def finished (r : RequestState) : Bool := r.finishedReason.isSome

def completionTokenCount (r : RequestState) : Nat := r.outputIds.length

def alignedPrefillLength (r : RequestState) (blockLength : Nat) : Nat :=
  r.inputIds.length/blockLength*blockLength

def markScheduled (r : RequestState) : RequestState := { r with scheduled := true }

def markDecodeBlockDone (r : RequestState) : RequestState :=
  { r with currentDecodeBlock := r.currentDecodeBlock+1 }

def put (o : Output) (r : RequestState) : RequestState := { r with queue := r.queue ++ [o] }

end RequestState

/-- `OutputProcessor.make_output`: the output, and the request with the tokens taken over. -/
def makeOutput (r : RequestState) (tokenIds : List Token) (text : String)
    (finishReason : Option String) : Output × RequestState :=
  let reason := finishReason <|> r.finishedReason
  (⟨r.rid,text,tokenIds,reason,none⟩,
    { r with
      outputIds := r.outputIds ++ tokenIds
      decodedText := r.decodedText ++ text
      finishedReason := reason })

def makeErrorOutput (r : RequestState) (error : String) : Output × RequestState :=
  (⟨r.rid,"",[],some "error",some error⟩,{ r with finishedReason := some "error" })

def makeAbortOutput (r : RequestState) (reason : String) : Output × RequestState :=
  (⟨r.rid,"",[],some "abort",some reason⟩,{ r with finishedReason := some "abort" })

end FluxServe.Engine
