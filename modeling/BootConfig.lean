import BootConfig.Config.Session
import BootConfig.Main
import BootConfig.Proofs.Config.Again
import BootConfig.Proofs.Config.Exact
import BootConfig.Proofs.Config.Names
import BootConfig.Proofs.Config.SecondPass
import BootConfig.Proofs.Config.Unwritable
import BootConfig.Proofs.Config.Walk
import BootConfig.Proofs.Filter.Report
import BootConfig.Proofs.Json.Layout
import BootConfig.Proofs.Text.Canonical
import BootConfig.Proofs.Yaml.Aliases
import BootConfig.Proofs.Yaml.Order
import BootConfig.Proofs.Yaml.Rounds
import BootConfig.Proofs.Yaml.Word
