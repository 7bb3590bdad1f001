import OmegaLb.GoMath

/-! The actor of kan_actor.go: the symbolic equations and the inference around them. A session
is what OrtSession.Run answers to one input row, and how the wait for the inference goroutine
ended is an input of the call. -/
namespace OmegaLb.Rl

structure KANActor (F : Type) where
  session : Option (List F → Except String (List (List F)))
  inferCh : Bool

inductive InferError where
  | enqueueTimeout
  | timeout
  | session (message : String)
  | emptyOutput
  deriving DecidableEq, Repr

def InferError.text (cause : String) : InferError → String
  | .enqueueTimeout => "KAN inference enqueue timeout: " ++ cause
  | .timeout => "KAN inference timeout: " ++ cause
  | .session message => message
  | .emptyOutput => "KAN model returned empty output"

inductive Wait where
  | answered
  | notEnqueued
  | notAnswered
  deriving DecidableEq, Repr

section Model
variable {F : Type} [GoMath F]

def normalize (v : List F) : List F :=
  let sum := sumFrom (GoFloat.lit 0) v
  if GoFloat.isZero sum then v.map fun _ => GoFloat.lit 1.0 / GoFloat.ofInt v.length
  else v.map fun x => x / sum

def perServer : Nat := 8

def score (base latency health errRate : F) : F :=
  let score := GoFloat.lit 1.0 - GoFloat.lit 0.42 * base -
    GoFloat.lit 0.31 * (latency / GoFloat.lit 1000.0) - GoFloat.lit 10.0 * errRate
  let score := if GoFloat.gt (GoFloat.lit 0) score then GoFloat.lit 0 else score
  score * health

def serverScore (state : List F) (i : Nat) : Go F := do
  let base ← goIndex state (i * perServer + 0)
  let latency ← goIndex state (i * perServer + 3)
  let health ← goIndex state (i * perServer + 6)
  let errRate ← goIndex state (i * perServer + 7)
  return score base latency health errRate

def symbolicFallback (state : List F) : Go (List F) :=
  if state.length < perServer then .ok [GoFloat.lit 1.0]
  else do
    let n := (state.length - 4) / perServer
    let raw ← (List.range n).mapM (serverScore state)
    return normalize raw

def softmax64 [GoRoots F] (logits : List F) : List F :=
  let out := logits.map GoRoots.exp
  let sum := sumFrom (GoFloat.lit 0) out
  let sum := if GoFloat.isZero sum then GoFloat.lit 1 else sum
  out.map fun x => x / sum

def KANActor.runInference [GoRoots F] (k : KANActor F) (state : List F) :
    Go (Except InferError (List F)) :=
  match k.session with
  | none => do return .ok (← symbolicFallback state)
  | some run =>
    match run (state.map GoMath.float32) with
    | .error message => .ok (.error (.session message))
    | .ok [] => .ok (.error .emptyOutput)
    | .ok (first :: _) => .ok (.ok (softmax64 first))

def KANActor.infer [GoRoots F] (k : KANActor F) (wait : Wait) (state : List F) :
    Go (List F × Option InferError) :=
  if !k.inferCh then do return (← symbolicFallback state, none)
  else match wait with
    | .notEnqueued => .ok ([], some .enqueueTimeout)
    | .notAnswered => .ok ([], some .timeout)
    | .answered => do
      match ← k.runInference state with
      | .error e => return (← symbolicFallback state, some e)
      | .ok weights => return (weights, none)

end Model

end OmegaLb.Rl
