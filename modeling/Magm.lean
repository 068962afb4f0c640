import Magm.Lib.History
import Magm.Collect.Attribution
import Magm.Collect.Replay
import Magm.Collect.SwitchLog
import Magm.Features.Clipping
import Magm.Features.Conservation
import Magm.Features.Dataset
import Magm.Features.Normalize
import Magm.Features.ThreadWindows
import Magm.Predict.Gaps
import Magm.Predict.Input
import Magm.Predict.Sequences
import Magm.Predict.Split
import Magm.Planner.Matching
import Magm.Planner.Cores
import Magm.Planner.RowOrder
import Magm.Export.Lossless
import Magm.Export.PlanFile
import Magm.Apply.Affinity
import Magm.Apply.Agreement
import Magm.Scx.Decode
import Magm.Scx.Installed
import Magm.Scx.LastWrite
import Magm.Scx.Layout
import Magm.Scx.Loader
import Magm.Scx.Scheduler
import Magm.Scx.Statistics
import Magm.Groups.Complementarity
import Magm.Groups.Greedy
import Magm.Predict.Labels
import Magm.Groups.Reproducible
import Magm.Groups.Aggregation
import Magm.Apply.Binding
import Magm.Apply.Exits
import Magm.Apply.Latest
import Magm.Apply.Live
import Magm.Collect.Counters
import Magm.Apply.Identity
import Magm.Export.Accepted
import Magm.Export.Summary
import Magm.Scx.Integers
import Magm.Apply.ProcessGroup
import Magm.Apply.Race
import Magm.Apply.RowRace
import Magm.Apply.DryRun
import Magm.Collect.Collected
import Magm.Collect.CpuCsv
import Magm.Pipeline.Measurement
import Magm.Pipeline.NonAnticipation
import Magm.Pipeline.Provenance
