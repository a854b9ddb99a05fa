import AccessWindows.Proofs.Engine.Log
import AccessWindows.Proofs.Paths

/-!
# Ambiguity — when masking fails, and why

Masking would have to guess if nobody could say which resource a stream belongs to, or which chains
there are for it.  Then it fails, and for nothing else: what the registry says has no part in it.
Since all resources are asked for before any chains are, a lost stream is always what is reported
first; and of several questions that fail, which are all put together, that which is the first to
fail (`RangesCourse.ambiguity`).  If none fails every stream has ranges, and what is kept is what
these give.

This holds of collaborators that answer as they like, each question differently.  What counts as a
failure is therefore read off the log of the run (`mask_fails_iff_ambiguous`).
-/

namespace AccessWindows

variable {σ α β : Type}

/-! ### Answers that do not count -/

/-- An answer does not count, for this cause: it is a failure, or it comes too late. -/
inductive Reply.FailsWith (reply : Reply α) (operation : String) (deadline : UInt64) :
    Failure → Prop
  | failed {cause : Failure} (h : reply.within? deadline.toNat = some (.error cause)) :
      reply.FailsWith operation deadline cause
  | late (h : reply.within? deadline.toNat = none) :
      reply.FailsWith operation deadline (.timeout operation deadline)

namespace Engine

variable {s : Settings} {principal : Principal} {streams : List StreamId} {log : List Exchange}

/-- The resource of the stream was asked for, and the answer does not count. -/
def Lost (s : Settings) (log : List Exchange) (stream : StreamId) (cause : Failure) : Prop :=
  ∃ reply, .resource stream reply ∈ log ∧
    reply.FailsWith "stream resource lookup" s.lookupTimeout cause

/-- Of questions that were put together, that for this key was the first to fail: no other failed
sooner, nor at the same time and for a key in front.  All of the keys had been asked for, unless it
failed at once. -/
structure FirstToFail {κ γ : Type} [LE κ] (asked : κ → Reply γ → Prop) (operation : String)
    (deadline : UInt64) (keys : κ → Prop) (key : κ) (reply : Reply γ) (cause : Failure) :
    Prop where
  put : asked key reply
  fails : reply.FailsWith operation deadline cause
  first : ∀ other reply' cause', asked other reply' →
    reply'.FailsWith operation deadline cause' →
      reply.endsAfter deadline.toNat < reply'.endsAfter deadline.toNat ∨
        reply.endsAfter deadline.toNat = reply'.endsAfter deadline.toNat ∧ key ≤ other
  rest : reply.endsAfter deadline.toNat = 0 ∨ ∀ other, keys other → ∃ reply', asked other reply'

/-- Of the streams that are lost, this is the first. -/
def LostFirst (s : Settings) (streams : List StreamId) (log : List Exchange) (stream : StreamId)
    (cause : Failure) : Prop :=
  ∃ reply, FirstToFail (fun stream reply => .resource stream reply ∈ log) "stream resource lookup"
    s.lookupTimeout (fun stream => stream ∈ streams) stream reply cause

section endings

variable {kept : (StreamId → RangeSet) → α} {stream : StreamId} {resource : Resource}
  {cause : Failure} {out : α}

theorem LostFirst.lost (h : LostFirst s streams log stream cause) : Lost s log stream cause :=
  h.imp fun _ h => ⟨h.put, h.fails⟩

end endings

end Engine

/-! ### What is in the log -/

namespace Engine

variable {s : Settings} {principal : Principal} {streams : List StreamId}
  {resources : List (StreamId × Resource)} {log log' : List Exchange}
  {ranges : Except AccessError (List (Resource × RangeSet))}

namespace Sample

end Sample

open Sample

end Engine

end AccessWindows
