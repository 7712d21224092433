import MethodLift.Pass.Basic

/-!
# Schedules

A round runs the wanted passes of a schedule once, in order. A schedule is settled when a round
changes nothing.
-/

namespace MethodLift.Schedule

/-- Runs a pass, and records it when it changed the method. -/
def runPass (round : Nat) (p : Pass) : LiftM Bool := do
  let ctx ← get
  if p.wanted ctx.options then
    let changed ← p.run round
    if changed then
      modify fun ctx => (ctx.say .trace (p.name ++ " changed the method")).record
        { kind := .passCompleted, pass := some p.name, message := p.description }
    pure changed
  else pure false

def runRound (round : Nat) : List Pass → LiftM Bool
  | [] => pure false
  | p :: rest => do
    let first ← runPass round p
    let others ← runRound round rest
    pure (first || others)

def runOnce (passes : List Pass) : LiftM Bool := runRound 0 passes

/-- Records that a schedule did not settle. -/
def giveUp (rounds : Nat) : LiftM Unit :=
  modify fun ctx =>
    (ctx.say .warn ("no fixed point after " ++ toString rounds ++ " rounds")).record
      { kind := .iterationLimit, message := "stopped after " ++ toString rounds ++ " rounds" }

/-- Runs at most `left` more rounds after `done` rounds that changed something. -/
def settleFrom (passes : List Pass) (done : Nat) : Nat → LiftM Nat
  | 0 => do
    if !passes.isEmpty then giveUp done
    pure done
  | left + 1 => do
    let changed ← runRound done passes
    if changed then settleFrom passes (done + 1) left else pure done

/-- Runs rounds until one changes nothing, at most `limit` of them, and counts those that changed
something. Reaching the limit is recorded. -/
def settle (passes : List Pass) (limit : Nat) : LiftM Nat := settleFrom passes 0 limit

end MethodLift.Schedule
