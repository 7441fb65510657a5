import Mathlib.Tactic

/-! Datetimes and their rounding: `utils.py`.
A timezone-aware datetime is its exact number of microseconds since 1970. -/
namespace KvdbClient

/-- `get_compatible_time_stamp`. The gap is a `timedelta`, which never compares equal to
`0`, so the early return for whole milliseconds is never taken. -/
def getCompatibleTimeStamp (timeStamp : ℤ) (roundUp : Bool) : ℤ :=
  let microSGap := timeStamp % 1000
  if roundUp then timeStamp + (1000 - microSGap) else timeStamp - microSGap

/-- `get_valid_timestamp(None)` at the clock reading `now`. -/
def getValidTimestamp (now : ℤ) : ℤ := getCompatibleTimeStamp now false

def threeMinutes : ℤ := 180000000

/-- The acquire and unlock filters' cutoff: `now - lock_expiry`, floored to the millisecond. -/
def timeCutoff (now lockExpiry : ℤ) : ℤ :=
  let cutoff := now - lockExpiry
  cutoff - cutoff % 1000

theorem timeCutoff_mono {now later : ℤ} (lockExpiry : ℤ) (h : now ≤ later) :
    timeCutoff now lockExpiry ≤ timeCutoff later lockExpiry := by
  simp only [timeCutoff]
  omega

/-- A cell stamped at `t` is at or past the cutoff for as long as the expiry has not elapsed. -/
theorem timeCutoff_le_getValidTimestamp {t now lockExpiry : ℤ} (h : now ≤ t + lockExpiry) :
    timeCutoff now lockExpiry ≤ getValidTimestamp t := by
  simp only [timeCutoff,getValidTimestamp,getCompatibleTimeStamp,Bool.false_eq_true,if_false]
  omega

end KvdbClient
