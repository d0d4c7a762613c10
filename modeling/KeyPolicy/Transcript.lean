import KeyPolicy.Service

/-!
# Transcripts

A transcript is the outcome of a run of the service together with everything that the run asked of
its surroundings, in order. The service runs in the monad of transcripts when its verifier and its
evaluator are plain functions: their answers depend on nothing but what they are asked.
-/

namespace KeyPolicy

/-- Something that the service asked of its surroundings. -/
inductive Call where
  | verify (pair : ResolvedPair) (digest : Bytes)
  | evaluate (policy : Policy) (verified : ResolvedSet)
  | emit (event : Event)

namespace Call

def event? : Call → Option Event
  | emit e => some e
  | _ => none

def verified? : Call → Option (ResolvedPair × Bytes)
  | verify r digest => some (r, digest)
  | _ => none

def evaluated? : Call → Option (Policy × ResolvedSet)
  | evaluate p verified => some (p, verified)
  | _ => none

end Call

/-- A value and the calls that led to it. -/
@[ext] structure Transcript (α : Type) where
  value : α
  calls : List Call

namespace Transcript

variable {α β : Type}

instance : Monad Transcript where
  pure a := ⟨a, []⟩
  bind t f := ⟨(f t.value).value, t.calls ++ (f t.value).calls⟩

@[simp] theorem value_pure (a : α) : (pure a : Transcript α).value = a := rfl

@[simp] theorem calls_pure (a : α) : (pure a : Transcript α).calls = [] := rfl

@[simp] theorem value_bind (t : Transcript α) (f : α → Transcript β) :
    (t >>= f).value = (f t.value).value := rfl

@[simp] theorem calls_bind (t : Transcript α) (f : α → Transcript β) :
    (t >>= f).calls = t.calls ++ (f t.value).calls := rfl

/-- Surroundings that answer with plain functions and write down each call. -/
def surroundings (verify : ResolvedPair → Bytes → Bool) (evaluate : Policy → ResolvedSet → Bool) :
    Surroundings Transcript where
  verify r digest := ⟨verify r digest, [.verify r digest]⟩
  evaluate p verified := ⟨evaluate p verified, [.evaluate p verified]⟩
  emit e := ⟨(), [.emit e]⟩

def events (t : Transcript α) : List Event := t.calls.filterMap Call.event?

/-- What the verifier was asked during a run. -/
def verifications (t : Transcript α) : List (ResolvedPair × Bytes) :=
  t.calls.filterMap Call.verified?

/-- What the evaluator was asked during a run. -/
def evaluations (t : Transcript α) : List (Policy × ResolvedSet) :=
  t.calls.filterMap Call.evaluated?

end Transcript

/-! ## A verifier for trial runs -/

/-- Which keys are trusted and which signatures are not, whatever was signed. -/
structure Keyring where
  trustedKeys : List Bytes
  rejectedSignatures : List Bytes

/-- Accept a pair if its key is trusted, under either algorithm, and its signature is not
rejected. -/
def Keyring.verify (ring : Keyring) (r : ResolvedPair) (_ : Bytes) : Bool :=
  ring.trustedKeys.contains r.key.bytes && !ring.rejectedSignatures.contains r.signature

end KeyPolicy
