/-!
# Measured phases

A stopwatch measures one phase.  It registers its measurement once, when it is
stopped for the first time or, at the latest, when it is given up.
Measurements are listed in the order in which they are registered.  Times are
readings of a clock, in nanoseconds.
-/

namespace Recognizer

/-- How long a phase took. -/
structure Measurement where
  name : String
  nanoseconds : Nat
deriving DecidableEq

/-- A stopwatch for one phase. -/
structure Stopwatch where
  name : String
  started : Nat
  registered : Bool
deriving DecidableEq

/-- Starts a stopwatch. -/
def Stopwatch.start (name : String) (now : Nat) : Stopwatch :=
  ⟨name, now, false⟩

/-- The measurements so far. -/
structure PhaseLog where
  measurements : List Measurement
deriving DecidableEq

namespace PhaseLog

/-- No measurements. -/
def empty : PhaseLog := ⟨[]⟩

/-- The names of the measured phases, in the order of registration. -/
def names (log : PhaseLog) : List String :=
  log.measurements.map (·.name)

/-- Stops a stopwatch.  Only the first time has an effect. -/
def stop (log : PhaseLog) (stopwatch : Stopwatch) (now : Nat) :
    PhaseLog × Stopwatch :=
  if stopwatch.registered then (log, stopwatch)
  else
    (⟨log.measurements ++ [⟨stopwatch.name, now - stopwatch.started⟩]⟩,
      { stopwatch with registered := true })

/-- Gives a stopwatch up, which stops it. -/
def release (log : PhaseLog) (stopwatch : Stopwatch) (now : Nat) : PhaseLog :=
  (log.stop stopwatch now).1

theorem stop_stop (log : PhaseLog) (stopwatch : Stopwatch)
    (now later : Nat) :
    (log.stop stopwatch now).1.stop (log.stop stopwatch now).2 later =
      log.stop stopwatch now := by
  by_cases registered : stopwatch.registered <;> simp [stop, registered]

end PhaseLog

end Recognizer
